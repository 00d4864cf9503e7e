import Fxp.EventLog

/-!
# Crash recovery of the event log

A log that was opened, appended to and reopened any number of times holds the header, the frames of the records that
were written completely, and behind them at most a torn frame (`Stored`).
-/

namespace Fxp

open Storage List

variable {p : Prost} {cfg : Configuration}
variable {r : Record} {torn : List UInt8} {rs : List Record} {log : EventLog}

theorem fromBeBytes_toBeBytes {n : Nat} (hn : n < 2 ^ 32) : fromBeBytes (toBeBytes n) = n := by
  simp only [fromBeBytes, toBeBytes, foldl_cons, foldl_nil, UInt8.toNat_ofNat']
  omega

@[simp] theorem toBeBytes_length (n : Nat) : (toBeBytes n).length = 4 := rfl

/-- The body of a record is neither empty nor too long for a frame. -/
def Fits (p : Prost) (r : Record) : Prop := p.record.encode r ≠ [] ∧ (p.record.encode r).length ≤ maxRecord

def frameOf (p : Prost) (r : Record) : List UInt8 := sealed (p.record.encode r)

private theorem frame_of_fits (h : Fits p r) : frame p r = .ok (frameOf p r) := by
  rw [frame, if_neg (by simp [h.1, h.2]), frameOf]

private theorem frame_eq_ok {bytes} (h : frame p r = .ok bytes) :
    Fits p r ∧ bytes = frameOf p r := by
  rw [frame] at h
  split at h
  · cases h
  rename_i hsize
  push Not at hsize
  cases h
  exact ⟨hsize, rfl⟩

private theorem frameOf_length (r : Record) : (frameOf p r).length = (p.record.encode r).length + 8 := by
  simp only [frameOf, sealed, length_append, toBeBytes_length]
  omega

private theorem frameOf_eq (r : Record) :
    frameOf p r = toBeBytes (p.record.encode r).length ++ (p.record.encode r
      ++ toBeBytes (crc32 (toBeBytes (p.record.encode r).length ++ p.record.encode r)).toNat) := by
  simp only [frameOf, sealed, append_assoc]

theorem Fits.length (h : Fits p r) :
    fromBeBytes (toBeBytes (p.record.encode r).length) = (p.record.encode r).length
      ∧ ¬ ((p.record.encode r).length = 0 ∨ maxRecord < (p.record.encode r).length) := by
  have hpos : (p.record.encode r).length ≠ 0 := fun h0 => h.1 (length_eq_zero_iff.mp h0)
  have hmax := h.2
  refine ⟨fromBeBytes_toBeBytes ?_, by omega⟩
  have : maxRecord < 2 ^ 32 := by decide
  omega

private theorem readFrame_frameOf (h : Fits p r) (a b : List UInt8) :
    readFrame p (File.at a (frameOf p r ++ b)) = (some r, File.at (a ++ frameOf p r) b) := by
  have hcrc : ∀ n : UInt32, fromBeBytes (toBeBytes n.toNat) = n.toNat := fun n => fromBeBytes_toBeBytes n.toNat_lt
  rw [readFrame, frameOf_eq, append_assoc, File.readExact_at _ _ (toBeBytes_length _)]
  simp only [h.length.1, if_neg h.length.2]
  rw [File.readExact_at _ _ (by simp)]
  simp [hcrc, p.record.decode_encode]

/-- A frame that is not there completely is not read. -/
theorem readFrame_torn (h : Fits p r) (htorn : torn <+: frameOf p r)
    (hlt : torn.length < (frameOf p r).length) (a : List UInt8) :
    readFrame p (File.at a torn) = (none, File.at (a ++ torn) []) := by
  rw [readFrame]
  by_cases hshort : torn.length < 4
  · rw [File.readExact_short _ hshort]
  -- The length is there, and what follows it is shorter than the body with its checksum.
  obtain ⟨rest, hrest⟩ : toBeBytes (p.record.encode r).length <+: torn := by
    refine prefix_of_prefix_length_le ?_ htorn (by simpa using hshort)
    rw [frameOf_eq]
    exact prefix_append _ _
  have hlen : rest.length < (p.record.encode r).length + 4 := by
    have := congrArg List.length hrest
    rw [length_append, toBeBytes_length] at this
    rw [frameOf_length] at hlt
    omega
  rw [← hrest, File.readExact_at _ _ (toBeBytes_length _)]
  simp only [h.length.1, if_neg h.length.2]
  rw [File.readExact_short _ hlen, append_assoc]

def frames (p : Prost) (rs : List Record) : List UInt8 := (rs.map (frameOf p)).flatten

@[simp] theorem frames_nil : frames p [] = [] := rfl

@[simp] theorem frames_cons (r : Record) (rs : List Record) : frames p (r :: rs) = frameOf p r ++ frames p rs := rfl

@[simp] theorem frames_append (rs rs' : List Record) : frames p (rs ++ rs') = frames p rs ++ frames p rs' := by
  simp [frames]

private theorem frames_singleton (r : Record) : frames p [r] = frameOf p r := by simp [frames]

private theorem length_le_frames (rs : List Record) : rs.length ≤ (frames p rs).length := by
  induction rs with
  | nil => exact Nat.le_refl _
  | cons =>
    rw [frames_cons, length_append, frameOf_length, length_cons]
    omega

/-- Nothing, or a frame that is not there completely. -/
def Torn (p : Prost) (torn : List UInt8) : Prop :=
  torn = [] ∨ ∃ r, Fits p r ∧ torn <+: frameOf p r ∧ torn.length < (frameOf p r).length

/-- The records have the sequence numbers from `n` on, all of which have a successor. -/
def Numbered (n : Nat) (rs : List Record) : Prop :=
  rs.map (·.seq) = List.range' n rs.length ∧ n + rs.length < 2 ^ 64

theorem Numbered.tail {n : Nat} (h : Numbered n (r :: rs)) :
    r.seq = n ∧ n + 1 < 2 ^ 64 ∧ Numbered (n + 1) rs := by
  obtain ⟨hseqs, hbound⟩ := h
  rw [length_cons] at hseqs hbound
  rw [map_cons, range'_succ] at hseqs
  obtain ⟨hr, hrs⟩ := cons_eq_cons.mp hseqs
  exact ⟨hr, by omega, hrs, by omega⟩

theorem Numbered.take {n : Nat} (h : Numbered n rs) (m : Nat) : Numbered n (rs.take m) := by
  have hlen : (rs.take m).length = min m rs.length := length_take
  have hbound := h.2
  refine ⟨?_, by omega⟩
  rw [map_take, h.1]
  exact ext_getElem (by simp) (by simp)

theorem Numbered.concat {n : Nat} (h : Numbered n rs) (hr : r.seq = n + rs.length)
    (hbound : r.seq + 1 < 2 ^ 64) : Numbered n (rs ++ [r]) := by
  refine ⟨?_, by rw [length_append, length_singleton]; omega⟩
  rw [map_append, h.1, length_append, length_singleton, range'_concat, Nat.one_mul, hr.symm,
    map_singleton]

/-- Reading a file with the frames of `rs` behind the cursor gives `rs` and cuts the rest off. -/
theorem scan_frames {n fuel : Nat} (hfits : ∀ r ∈ rs, Fits p r)
    (hnum : Numbered n rs) (htorn : Torn p torn) (hfuel : rs.length < fuel) (a : List UInt8) (records : List Record) :
    EventLog.scan p (a ++ frames p rs ++ torn).length fuel (File.at a (frames p rs ++ torn)) a.length n records
      = .ok ({ file := File.at (a ++ frames p rs) [], nextSeq := n + rs.length, failed := false }, records ++ rs) := by
  induction rs generalizing n fuel a records with
  | nil =>
    rcases fuel with _ | fuel
    · omega
    rw [EventLog.scan, frames_nil, nil_append, append_nil, append_nil]
    by_cases hnil : torn = []
    · subst hnil
      rw [append_nil, if_neg (Nat.lt_irrefl _)]
      rfl
    obtain ⟨_, hr, hstart, hlt⟩ := htorn.resolve_left hnil
    have hmore : a.length < (a ++ torn).length := by
      have := length_pos_of_ne_nil hnil
      rw [length_append]
      omega
    rw [if_pos hmore, readFrame_torn hr hstart hlt]
    simp only
    rw [File.setLen_seek (b := torn) (by simp)]
    rfl
  | cons r rs ih =>
    obtain ⟨hseq, hbound, hrest⟩ := hnum.tail
    rcases fuel with _ | fuel
    · omega
    have hr := hfits r mem_cons_self
    have hlt : a.length < (a ++ frames p (r :: rs) ++ torn).length := by
      simp only [frames_cons, length_append, frameOf_length]
      omega
    have hbytes : a ++ frames p (r :: rs) = a ++ frameOf p r ++ frames p rs := by
      rw [frames_cons, append_assoc]
    have htail := ih (fun r' h => hfits r' (mem_cons_of_mem _ h)) hrest (Nat.succ_lt_succ_iff.mp hfuel)
      (a ++ frameOf p r) (records ++ [r])
    rw [EventLog.scan, if_pos hlt, hbytes, frames_cons, append_assoc (frameOf p r), readFrame_frameOf hr]
    simp only [hseq, nextSeqOf, if_pos hbound, ne_eq, not_true_eq_false, if_false]
    refine htail.trans ?_
    simp only [length_cons, append_assoc, singleton_append]
    rw [Nat.add_right_comm, Nat.add_assoc]

/-- A file with the header and the frames of `rs`. -/
def image (p : Prost) (cfg : Configuration) (rs : List Record) : List UInt8 :=
  magic ++ frameOf p cfg.record ++ frames p rs

private theorem magic_length : magic.length = 8 := by decide +kernel

private theorem image_nil : image p cfg [] = magic ++ frameOf p cfg.record := append_nil _

private theorem image_eq (rs : List Record) : image p cfg rs = image p cfg [] ++ frames p rs := by
  rw [image_nil, image]

private theorem image_concat (rs : List Record) (r : Record) : image p cfg (rs ++ [r]) = image p cfg rs ++
    frameOf p r := by
  rw [image, frames_append, frames_singleton, ← append_assoc, image]

/-- Reading a file with the frames of `rs` and a torn frame behind them. -/
theorem load_image {file} (hfile : file.bytes = image p cfg rs ++ torn)
    (hheader : Fits p cfg.record) (hfits : ∀ r ∈ rs, Fits p r) (hnum : Numbered 1 rs) (htorn : Torn p torn) :
    EventLog.load p cfg file
      = .ok ({ file := File.at (image p cfg rs) [], nextSeq := rs.length + 1, failed := false }, rs) := by
  have hbytes : file.bytes = magic ++ (frameOf p cfg.record ++ (frames p rs ++ torn)) := by
    rw [hfile, image]
    simp only [append_assoc]
  have hfuel : rs.length < (image p cfg rs ++ torn).length := by
    have := length_le_frames (p := p) rs
    simp only [image, length_append, magic_length]
    omega
  rw [EventLog.load, File.seek_zero, hbytes, File.readExact_at _ _ magic_length]
  simp only [nil_append, readFrame_frameOf hheader, ne_eq, not_true_eq_false, if_false]
  have hscan := scan_frames hfits hnum htorn hfuel (magic ++ frameOf p cfg.record) []
  simpa [image, append_assoc, Nat.add_comm 1] using hscan

private theorem openConfigured_image (hheader : Fits p cfg.record)
    (hfits : ∀ r ∈ rs, Fits p r) (hnum : Numbered 1 rs) (htorn : Torn p torn) :
    EventLog.openConfigured p cfg (image p cfg rs ++ torn)
      = .ok ({ file := File.at (image p cfg rs) [], nextSeq := rs.length + 1, failed := false }, rs) := by
  have hne : (image p cfg rs ++ torn).length ≠ 0 := by
    simp only [image, length_append, magic_length]
    omega
  rw [EventLog.openConfigured, if_neg hne]
  exact load_image rfl hheader hfits hnum htorn

private theorem openConfigured_nil (hheader : Fits p cfg.record) :
    EventLog.openConfigured p cfg []
      = .ok ({ file := File.at (image p cfg []) [], nextSeq := 1, failed := false }, []) := by
  have hwritten : ((File.mk [] 0).write magic).write (frameOf p cfg.record) = File.at (image p cfg []) [] := by
    rw [image_nil]
    exact (congrArg (File.write _) (File.write_end [] magic)).trans (File.write_end _ _)
  have hnum : Numbered 1 [] := ⟨rfl, by decide⟩
  rw [EventLog.openConfigured, if_pos length_nil, frame_of_fits hheader]
  exact load_image (congrArg File.bytes hwritten) hheader (by simp) hnum (.inl rfl)

private theorem fits_of_openConfigured
    (h : EventLog.openConfigured p cfg [] = .ok (log, rs)) : Fits p cfg.record := by
  rw [EventLog.openConfigured, if_pos length_nil] at h
  obtain ⟨_, hframe, -⟩ := Checked.bind_eq_ok.mp h
  exact (frame_eq_ok hframe).1

namespace EventLog

/-- The record an append leaves in the file: all of its frame was written. -/
def stored (p : Prost) (disk : Disk) (symbol : String) («at» : Time) (input : Input) (log : EventLog) : List Record :=
  let record := log.record p symbol «at» input
  if log.failed then []
  else
    match frame p record, nextSeqOf log.nextSeq with
    | .ok bytes, .ok _ => if disk.written.all (bytes.length ≤ ·) then [record] else []
    | _, _ => []

end EventLog

/-- `log` was opened on an empty file, appended to and reopened, with the frames of `rs`; between two runs the file
may lose its end, but not a part of its header. -/
inductive Logged (p : Prost) (cfg : Configuration) : EventLog → List Record → Prop
  | opened {log : EventLog} {rs : List Record} (h : EventLog.openConfigured p cfg [] = .ok (log, rs)) :
      Logged p cfg log rs
  | append {log : EventLog} {rs : List Record} (disk : Disk) (symbol : String) («at» : Time) (input : Input)
      (h : Logged p cfg log rs) :
      Logged p cfg (log.append p disk symbol «at» input).2 (rs ++ log.stored p disk symbol «at» input)
  | reopen {log log' : EventLog} {rs rs' : List Record} (cut : Nat) (h : Logged p cfg log rs)
      (hcut : (image p cfg []).length ≤ cut)
      (hopen : EventLog.openConfigured p cfg (log.file.bytes.take cut) = .ok (log', rs')) : Logged p cfg log' rs'

/-- What the file of a log holds; a log that has not failed writes behind the last frame. -/
structure Stored (p : Prost) (cfg : Configuration) (log : EventLog) (rs : List Record) : Prop where
  header : Fits p cfg.record
  fits : ∀ r ∈ rs, Fits p r
  numbered : Numbered 1 rs
  bytes : ∃ torn, Torn p torn ∧ log.file.bytes = image p cfg rs ++ torn
  working : log.failed = false → log.file = File.at (image p cfg rs) [] ∧ log.nextSeq = rs.length + 1

theorem Stored.of_end (hheader : Fits p cfg.record) (hfits : ∀ r ∈ rs, Fits p r)
    (hnum : Numbered 1 rs) (hfile : log.file = File.at (image p cfg rs) []) (hseq : log.nextSeq = rs.length + 1) :
    Stored p cfg log rs :=
  ⟨hheader, hfits, hnum, ⟨[], .inl rfl, by rw [hfile]; rfl⟩, fun _ => ⟨hfile, hseq⟩⟩

theorem Torn.take (h : Torn p torn) (k : Nat) : Torn p (torn.take k) := by
  rcases h with rfl | ⟨r, hr, hstart, hlt⟩
  · exact .inl take_nil
  · refine .inr ⟨r, hr, (List.take_prefix _ _).trans hstart, ?_⟩
    exact Nat.lt_of_le_of_lt (length_take_le' _ _) hlt

private theorem image_length (rs : List Record) :
    (image p cfg rs).length = (image p cfg []).length + (frames p rs).length := by
  rw [image_eq, length_append]

private theorem frames_take_length (rs : List Record) (i : Nat) :
    (frames p (rs.take i)).length ≤ (frames p rs).length := by
  have := congrArg (fun l => (frames p l).length) (take_append_drop i rs)
  simp only [frames_append, length_append] at this
  omega

private theorem exists_take_frames (hfits : ∀ r ∈ rs, Fits p r) (k : Nat) :
    ∃ m torn, Torn p torn ∧ (frames p rs).take k = frames p (rs.take m) ++ torn ∧ m ≤ rs.length
      ∧ ∀ i ≤ rs.length, (frames p (rs.take i)).length ≤ k ↔ i ≤ m := by
  obtain ⟨m, torn, htake, htorn, hm, hiff⟩ := exists_take_flatten (rs.map (frameOf p)) k
  simp only [← map_take, length_map] at htake hm hiff
  refine ⟨m, torn, htorn.imp_right ?_, htake, hm, hiff⟩
  rintro ⟨_, hl, hstart, hlt⟩
  obtain ⟨r, hr, rfl⟩ := mem_map.mp hl
  exact ⟨r, hfits r hr, hstart, hlt⟩

theorem Stored.cut (h : Stored p cfg log rs) {cut : Nat}
    (hcut : (image p cfg []).length ≤ cut) :
    ∃ m torn, Torn p torn ∧ log.file.bytes.take cut = image p cfg (rs.take m) ++ torn ∧ m ≤ rs.length
      ∧ ∀ i ≤ rs.length, (image p cfg (rs.take i)).length ≤ (log.file.bytes.take cut).length ↔ i ≤ m := by
  obtain ⟨torn, htorn, hbytes⟩ := h.bytes
  have himage : (image p cfg rs).length = _ := image_length rs
  rw [hbytes]
  by_cases hlong : (image p cfg rs).length ≤ cut
  · -- The cut is behind all frames.
    refine ⟨rs.length, torn.take (cut - (image p cfg rs).length), htorn.take _, ?_, Nat.le_refl _, ?_⟩
    · rw [take_length, take_append, take_of_length_le hlong]
    intro i hi
    refine iff_of_true ?_ hi
    have := frames_take_length (p := p) rs i
    rw [image_length, length_take, length_append]
    omega
  · obtain ⟨m, torn', htorn', htake, hm, hiff⟩ := exists_take_frames h.fits (cut - (image p cfg []).length)
    refine ⟨m, torn', htorn', ?_, hm, ?_⟩
    · rw [take_append_of_le_length (by omega), image_eq, take_append, take_of_length_le hcut, htake,
        ← append_assoc, ← image_eq]
    intro i hi
    rw [← hiff i hi, image_length, length_take, length_append]
    omega

private theorem nextSeqOf_eq_ok {seq next : Nat} (h : nextSeqOf seq = .ok next) : seq + 1 < 2 ^ 64 ∧
    next = seq + 1 := by
  rw [nextSeqOf] at h
  split at h
  · rename_i hlt
    cases h
    exact ⟨hlt, rfl⟩
  · cases h

theorem Stored.concat {log'} (h : Stored p cfg log rs) (hr : Fits p r)
    (hseq : r.seq = rs.length + 1) (hbound : r.seq + 1 < 2 ^ 64)
    (hfile : log'.file = File.at (image p cfg rs ++ frameOf p r) [])
    (hnext : log'.failed = false → log'.nextSeq = r.seq + 1) : Stored p cfg log' (rs ++ [r]) := by
  rw [← image_concat] at hfile
  refine ⟨h.header, ?_, h.numbered.concat (by omega) hbound, ⟨[], .inl rfl, by rw [hfile]; rfl⟩,
    fun hf => ⟨hfile, ?_⟩⟩
  · intro r' hr'
    rcases mem_append.mp hr' with hr' | hr'
    · exact h.fits r' hr'
    · rwa [mem_singleton.mp hr']
  · rw [hnext hf, hseq, length_append, length_singleton]

theorem Stored.append (h : Stored p cfg log rs) (disk : Disk) (symbol : String)
    («at» : Time) (input : Input) :
    Stored p cfg (log.append p disk symbol «at» input).2 (rs ++ log.stored p disk symbol «at» input) := by
  have hsame : Stored p cfg log (rs ++ []) := by
    rwa [append_nil]
  rw [EventLog.append, EventLog.stored]
  split
  · exact hsame
  rename_i hworking
  obtain ⟨hfile, hseq⟩ := h.working (by simpa using hworking)
  rcases hframe : frame p (log.record p symbol «at» input) with e | _
  · exact hsame
  rcases hnext : nextSeqOf log.nextSeq with _ | _
  · exact hsame
  obtain ⟨hr, rfl⟩ := frame_eq_ok hframe
  obtain ⟨hbound, rfl⟩ := nextSeqOf_eq_ok hnext
  have hwrite (data : List UInt8) : log.file.write data = File.at (image p cfg rs ++ data) [] := by
    rw [hfile, File.write_end]
  obtain ⟨written, synced⟩ := disk
  cases written with
  | some n =>
    by_cases hall : (frameOf p (log.record p symbol «at» input)).length ≤ n
    · simp only [Option.all_some, hall, decide_true, if_true, take_of_length_le hall]
      exact h.concat hr hseq hbound (hwrite _) nofun
    simp only [Option.all_some, hall, decide_false, Bool.false_eq_true, if_false, append_nil]
    refine ⟨h.header, h.fits, h.numbered, ⟨_, .inr ⟨_, hr, take_prefix n _, ?_⟩, ?_⟩, nofun⟩
    · rw [length_take]
      omega
    · rw [hwrite]
      exact append_nil _
  | none =>
    cases synced with
    | false => exact h.concat hr hseq hbound (hwrite _) nofun
    | true => exact h.concat hr hseq hbound (hwrite _) fun _ => rfl

/-- Reopening a log gives the records whose frames are before the cut, and a log that holds them. -/
theorem Stored.reopen (h : Stored p cfg log rs) {cut : Nat}
    (hcut : (image p cfg []).length ≤ cut) :
    ∃ m, m ≤ rs.length
      ∧ EventLog.openConfigured p cfg (log.file.bytes.take cut)
        = .ok ({ file := File.at (image p cfg (rs.take m)) [], nextSeq := m + 1, failed := false }, rs.take m)
      ∧ ∀ i ≤ rs.length, (image p cfg (rs.take i)).length ≤ (log.file.bytes.take cut).length ↔ i ≤ m := by
  obtain ⟨m, _, htorn, hbytes, hm, hiff⟩ := h.cut hcut
  refine ⟨m, hm, ?_, hiff⟩
  have hopen := openConfigured_image h.header (fun r hr => h.fits r (mem_of_mem_take hr)) (h.numbered.take m) htorn
  rw [hbytes, hopen, length_take, Nat.min_eq_left hm]

theorem Logged.stored (h : Logged p cfg log rs) : Stored p cfg log rs := by
  induction h with
  | opened hopen =>
    have hheader := fits_of_openConfigured hopen
    rw [openConfigured_nil hheader] at hopen
    cases hopen
    exact .of_end hheader (by simp) ⟨rfl, by decide⟩ rfl rfl
  | append disk symbol «at» input _ ih => exact ih.append disk symbol «at» input
  | @reopen _ _ _ _ _ _ hcut hopen ih =>
    obtain ⟨m, hm, hcomputed, -⟩ := ih.reopen hcut
    cases hopen.symm.trans hcomputed
    refine .of_end ih.header (fun r hr => ih.fits r (mem_of_mem_take hr)) (ih.numbered.take m) rfl ?_
    rw [length_take, Nat.min_eq_left hm]

/-- What is appended to a log. -/
structure Entry where
  symbol : String
  «at» : Time
  input : Input

/-- The records of `entries` from the sequence number `n` on. -/
def recordsOf (p : Prost) : Nat → List Entry → List Record
  | _, [] => []
  | n, e :: entries =>
    let (kind, payload) := e.input.encode p
    { seq := n, seconds := e.at.seconds, nanos := e.at.nanos, symbol := e.symbol, kind, payload }
      :: recordsOf p (n + 1) entries

namespace EventLog

/-- Appends that all succeed. -/
def appendAll (p : Prost) : List Entry → EventLog → Except LogError EventLog
  | [], log => .ok log
  | e :: entries, log =>
    match log.append p {} e.symbol e.at e.input with
    | (.error error, _) => .error error
    | (.ok (), log) => log.appendAll p entries

def results (p : Prost) : List (Disk × Entry) → EventLog → List (Except LogError Unit)
  | [], _ => []
  | (disk, e) :: later, log =>
    let (result, log) := log.append p disk e.symbol e.at e.input
    result :: log.results p later

end EventLog

private theorem recordsOf_cons (n : Nat) (e : Entry) (entries : List Entry) (log : EventLog) (hn : log.nextSeq = n) :
    recordsOf p n (e :: entries) = log.record p e.symbol e.at e.input :: recordsOf p (n + 1) entries := by
  rw [← hn]
  rfl

private theorem append_working (hworking : log.failed = false) (e : Entry)
    (hfits : Fits p (log.record p e.symbol e.at e.input)) (hbound : log.nextSeq + 1 < 2 ^ 64) :
    log.append p {} e.symbol e.at e.input
        = (.ok (), { log with
            file := log.file.write (frameOf p (log.record p e.symbol e.at e.input)), nextSeq := log.nextSeq + 1 })
      ∧ log.stored p {} e.symbol e.at e.input = [log.record p e.symbol e.at e.input] := by
  have hnext : nextSeqOf log.nextSeq = .ok (log.nextSeq + 1) := if_pos hbound
  simp [EventLog.append, EventLog.stored, hworking, frame_of_fits hfits, hnext]

theorem Logged.appendAll (h : Logged p cfg log rs) (hworking : log.failed = false)
    {entries} (hfits : ∀ r ∈ recordsOf p log.nextSeq entries, Fits p r)
    (hbound : log.nextSeq + entries.length < 2 ^ 64) :
    ∃ log', log.appendAll p entries = .ok log' ∧ Logged p cfg log' (rs ++ recordsOf p log.nextSeq entries) := by
  induction entries generalizing log rs with
  | nil => exact ⟨log, rfl, by rwa [recordsOf, append_nil]⟩
  | cons e entries ih =>
    rw [recordsOf_cons _ e entries log rfl] at hfits ⊢
    rw [length_cons] at hbound
    obtain ⟨happend, hstored⟩ := append_working hworking e (hfits _ mem_cons_self) (by omega)
    have hnext := Logged.append {} e.symbol e.at e.input h
    rw [happend, hstored] at hnext
    obtain ⟨log', hlog', hlogged⟩ := ih hnext hworking (fun r hr => hfits r (mem_cons_of_mem _ hr))
      (show log.nextSeq + 1 + entries.length < 2 ^ 64 by omega)
    refine ⟨log', ?_, by simpa using hlogged⟩
    rw [EventLog.appendAll, happend]
    exact hlog'

private theorem frame_error {e} (h : frame p r = .error e) : e ≠ .write ∧ e ≠ .sync := by
  rw [frame] at h
  split at h
  · cases h
    exact ⟨nofun, nofun⟩
  · cases h

private theorem nextSeqOf_error {seq : Nat} {e} (h : nextSeqOf seq = .error e) : e ≠ .write ∧ e ≠ .sync := by
  rw [nextSeqOf] at h
  split at h
  · cases h
  · cases h
    exact ⟨nofun, nofun⟩

private theorem failed_of_append {disk symbol «at» input e}
    (h : (log.append p disk symbol «at» input).1 = .error e) (he : e = .write ∨ e = .sync) :
    (log.append p disk symbol «at» input).2.failed = true := by
  rw [EventLog.append] at h ⊢
  split
  · assumption
  rename_i hworking
  rw [if_neg hworking] at h
  rcases hframe : frame p (log.record p symbol «at» input) with e' | _
  · rw [hframe] at h
    cases h
    exact absurd he (not_or.mpr (frame_error hframe))
  rcases hnext : nextSeqOf log.nextSeq with _ | _
  · rw [hframe, hnext] at h
    cases h
    exact absurd he (not_or.mpr (nextSeqOf_error hnext))
  rw [hframe, hnext] at h
  obtain ⟨written, synced⟩ := disk
  cases written with
  | some => rfl
  | none =>
    cases synced with
    | false => rfl
    | true => cases h

private theorem results_of_failed (h : log.failed = true) (later : List (Disk × Entry)) :
    ∀ result ∈ log.results p later, result ≠ .ok () := by
  induction later with
  | nil => simp [EventLog.results]
  | cons e _ ih =>
    have hrefused : log.append p e.1 e.2.symbol e.2.at e.2.input
        = (.error (.other "event log is failed; restart required"), log) := by
      rw [EventLog.append, if_pos h]
    rw [EventLog.results, hrefused]
    intro result hresult
    rcases mem_cons.mp hresult with rfl | hresult
    · nofun
    · exact ih result hresult

/-- A log that is cut behind its header has exactly the records whose frames are still whole: its file ends behind
them, and later records follow with the next numbers. A log whose disk failed takes no further record. -/
theorem eventLog_recovers {log : EventLog} {rs : List Record} (h : Logged p cfg log rs) :
    rs.map (·.seq) = List.range' 1 rs.length
    ∧ (∀ cut, (image p cfg []).length ≤ cut → ∃ m log',
        EventLog.openConfigured p cfg (log.file.bytes.take cut) = .ok (log', rs.take m) ∧ m ≤ rs.length
        ∧ (∀ i ≤ rs.length, (image p cfg (rs.take i)).length ≤ (log.file.bytes.take cut).length ↔ i ≤ m)
        ∧ log'.file.bytes = image p cfg (rs.take m)
        ∧ Logged p cfg log' (rs.take m)
        ∧ ∀ entries, (∀ r ∈ recordsOf p (m + 1) entries, Fits p r) → m + 1 + entries.length < 2 ^ 64 →
          ∃ log₁ log₂, log'.appendAll p entries = .ok log₁
            ∧ EventLog.openConfigured p cfg log₁.file.bytes = .ok (log₂, rs.take m ++ recordsOf p (m + 1) entries))
    ∧ ∀ disk symbol «at» input e, (log.append p disk symbol «at» input).1 = .error e → e = .write ∨ e = .sync →
        ∀ later, ∀ result ∈ (log.append p disk symbol «at» input).2.results p later, result ≠ .ok () := by
  refine ⟨h.stored.numbered.1, fun cut hcut => ?_, fun disk symbol «at» input e he hdisk =>
    results_of_failed (failed_of_append he hdisk)⟩
  obtain ⟨m, hm, hopen, hiff⟩ := h.stored.reopen hcut
  have hlogged := Logged.reopen cut h hcut hopen
  refine ⟨m, _, hopen, hm, hiff, append_nil _, hlogged, fun entries hfits hbound => ?_⟩
  obtain ⟨log₁, hlog₁, hlogged₁⟩ := hlogged.appendAll rfl hfits hbound
  obtain ⟨_, htorn, hbytes⟩ := hlogged₁.stored.bytes
  have hopen₁ := openConfigured_image hlogged₁.stored.header hlogged₁.stored.fits hlogged₁.stored.numbered htorn
  rw [← hbytes] at hopen₁
  exact ⟨log₁, _, hlog₁, hopen₁⟩

deriving instance Countable for Record, NewOrderSingle, OrderCancelRequest, OrderCancelReplaceRequest,
  OrderMassCancelRequest, SessionControl

/-- A header and two records with their protobuf bytes: tags and values, without the fields that have a default value.
-/
def Prost.sampleTable : List (Record × List UInt8) :=
  let symbol := [34, 6] ++ "EURUSD".toUTF8.toList
  [(Configuration.record { schedule := none }, [50, 29] ++ "engine-input-v1;schedule=None".toUTF8.toList),
    (⟨1, 1, 0, "EURUSD", 4, []⟩, [8, 1, 16, 1] ++ symbol ++ [40, 4]),
    (⟨2, 2, 0, "EURUSD", 5, []⟩, [8, 2, 16, 2] ++ symbol ++ [40, 5])]

noncomputable def Prost.sample : Prost where
  record := (Codec.ofCountable _).withTable sampleTable (by decide +kernel) (by decide +kernel)
  newOrderSingle := .ofCountable _
  orderCancelRequest := .ofCountable _
  orderCancelReplaceRequest := .ofCountable _
  orderMassCancelRequest := .ofCountable _
  sessionControl := .ofCountable _

/-- A log with one record and a second one whose frame is torn after ten bytes. -/
theorem eventLog_recovers_torn :
    ∃ log log' rs, Logged Prost.sample { schedule := none } log rs ∧ rs.map (·.seq) = [1]
      ∧ EventLog.openConfigured Prost.sample { schedule := none } log.file.bytes = .ok (log', rs) := by
  have hheader : Fits Prost.sample (Configuration.record { schedule := none }) :=
    ⟨by decide +kernel, by decide +kernel⟩
  have hopen := openConfigured_nil hheader
  have h := ((Logged.opened hopen).append {} "EURUSD" { seconds := 1, nanos := 0 } .tick).append
    { written := some 10 } "EURUSD" { seconds := 2, nanos := 0 } .subscribe
  obtain ⟨-, hrecover, -⟩ := eventLog_recovers h
  obtain ⟨_, log', hopened, _, hiff, -⟩ := hrecover 1000 (by decide +kernel)
  have hall := (hiff _ (Nat.le_refl _)).mp (by decide +kernel)
  rw [take_of_length_le (by decide +kernel), take_of_length_le hall] at hopened
  exact ⟨_, log', _, h, by decide +kernel, hopened⟩

end Fxp
