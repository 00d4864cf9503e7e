import Fxp.Fix.StoreSpec

/-!
# A file store refines a memory store

The files of a store show a memory store: the frames that are not too old, and the two numbers (`Shows`).
-/

namespace Fxp.Fix

open Durable List Function

/-- The records and the numbers in the files are those of `m`, as far as they are kept. -/
structure Shows (limit : Int) (d : Files Path) (recs : List (Int × Bytes)) (m : MemoryStore) : Prop where
  storable : ∀ r ∈ recs, Storable r
  frames : ∀ seq, m.nextOut - limit ≤ seq → frameOf? recs seq = m.get seq
  numbers : ∃ out, storedNums (d .seqNums) = some (m.nextIn, out) ∧ max out ((recovered recs).maxSeq + 1) = m.nextOut
  pending : d .resetPending = none
  first : 1 ≤ m.nextOut
  isInt : IsInt m.nextIn ∧ IsInt m.nextOut

def OnDisk (limit : Int) (d : Files Path) (m : MemoryStore) : Prop :=
  ∃ recs tail, (d .outboundLog).getD [] = encodeLog recs ++ tail ∧ TornRecord tail ∧ Shows limit d recs m

structure Opened (limit : Int) (fs : FileStore) (d : Files Path) (recs : List (Int × Bytes)) (m : MemoryStore) :
    Prop where
  indexed : Indexed fs d recs
  shows : Shows limit d recs m
  nextIn : fs.nextIn = m.nextIn
  nextOut : fs.nextOut = m.nextOut
  closed : fs.closed = false
  failed : fs.failed = none
  limit : fs.opts.maxMessages = limit

variable {limit : Int} {d d' : Files Path} {fs : FileStore} {recs recs' : List (Int × Bytes)} {m : MemoryStore}
variable {opts : FileStoreOptions}

theorem Shows.sameFiles (h : Shows limit d recs m) (hd : SameFiles d d') : Shows limit d' recs m where
  storable := h.storable
  frames := h.frames
  numbers := by
    rw [hd .seqNums rfl]
    exact h.numbers
  pending := (hd .resetPending rfl).trans h.pending
  first := h.first
  isInt := h.isInt

theorem OnDisk.sameFiles (h : OnDisk limit d m) (hd : SameFiles d d') : OnDisk limit d' m := by
  obtain ⟨recs, tail, hlog, htail, hshows⟩ := h
  refine ⟨recs, tail, ?_, htail, hshows.sameFiles hd⟩
  rw [hd .outboundLog rfl, hlog]

theorem Opened.onDisk (h : Opened limit fs d recs m) : OnDisk limit d m :=
  ⟨recs, [], by rw [h.indexed.log, append_nil]; rfl, .inl rfl, h.shows⟩

theorem Opened.log_ne_none (h : Opened limit fs d recs m) : d .outboundLog ≠ none := by
  rw [h.indexed.log]
  simp

theorem Opened.kept_frame (h : Opened limit fs d recs m) (seq : Int) :
    (if seq < fs.nextOut - fs.opts.maxMessages then none else frameOf? recs seq) =
      if m.nextOut - limit ≤ seq then m.get seq else none := by
  rw [h.nextOut, h.limit]
  by_cases hseq : seq < m.nextOut - limit
  · rw [if_pos hseq, if_neg (by omega)]
  · rw [if_neg hseq, if_pos (by omega), h.shows.frames seq (by omega)]

theorem OnDisk.open (h : OnDisk limit d m) {dir} (hlimit : opts.withDefaults.maxMessages = limit) :
    Meets False (openFileStore dir opts).run (fun r d' => ∃ fs recs, r = .ok fs ∧ Opened limit fs d' recs m)
      (fun d' => OnDisk limit d' m) d := by
  obtain ⟨recs, tail, hlog, htail, hshows⟩ := h
  obtain ⟨_, hnums, hout⟩ := hshows.numbers
  have hupdate : ∀ b, Shows limit (update d .outboundLog b) recs m := fun b =>
    { hshows with
      numbers := by
        rw [update_of_ne (by simp)]
        exact hshows.numbers
      pending := by
        rw [update_of_ne (by simp)]
        exact hshows.pending }
  refine (open_meets hlog htail hshows.storable hnums hshows.pending dir opts).mono (fun r d' hr => ?_) fun d' hd' => ?_
  · obtain ⟨rfl, rfl⟩ := hr
    exact ⟨_, recs, rfl, ⟨update_self .., rfl, hshows.storable⟩, hupdate _, rfl, hout, rfl, rfl, hlimit⟩
  rcases hd' with rfl | ⟨torn, htorn, rfl⟩
  · exact ⟨recs, tail, hlog, htail, hshows⟩
  · exact ⟨recs, torn, by rw [update_self]; rfl, htorn, hupdate _⟩

private theorem le_maxSeq {r} (hr : r ∈ recs) : r.1 ≤ (recovered recs).maxSeq := by
  rw [recovered_maxSeq]
  have hle : ∀ (l : List Int) (a : Int), a ≤ l.foldl max a ∧ ∀ x ∈ l, x ≤ l.foldl max a := by
    intro l
    induction l with
    | nil => simp
    | cons y _ ih =>
      intro a
      obtain ⟨hfirst, hrest⟩ := ih (max a y)
      refine ⟨(le_max_left a y).trans hfirst, fun x hx => ?_⟩
      rcases mem_cons.mp hx with rfl | hx
      · exact (le_max_right a x).trans hfirst
      · exact hrest x hx
  exact (hle _ 0).2 _ (mem_map_of_mem hr)

private theorem maxSeq_le {n : Int} (hn : 0 ≤ n) (h : ∀ r ∈ recs, r.1 ≤ n) : (recovered recs).maxSeq ≤ n := by
  rw [recovered_maxSeq]
  have hle : ∀ (l : List Int) (a : Int), a ≤ n → (∀ x ∈ l, x ≤ n) → l.foldl max a ≤ n := by
    intro l
    induction l with
    | nil => exact fun a ha _ => ha
    | cons y _ ih => exact fun a ha hl => ih _ (max_le ha (hl y mem_cons_self)) fun x hx => hl x (mem_cons_of_mem _ hx)
  refine hle _ 0 hn fun x hx => ?_
  obtain ⟨r, hr, rfl⟩ := mem_map.mp hx
  exact h r hr

theorem Shows.lt_nextOut (h : Shows limit d recs m) {r} (hr : r ∈ recs) : r.1 < m.nextOut := by
  obtain ⟨_, -, _⟩ := h.numbers
  have := le_maxSeq hr
  omega

private theorem mem_select {seqs r} : r ∈ select recs seqs ↔ r.1 ∈ seqs ∧ frameOf? recs r.1 = some r.2 := by
  rw [select, mem_filterMap]
  constructor
  · rintro ⟨_, hseq, hr⟩
    obtain ⟨_, hframe, rfl⟩ := Option.map_eq_some_iff.mp hr
    exact ⟨hseq, hframe⟩
  · rintro ⟨hseq, hframe⟩
    exact ⟨r.1, hseq, by rw [hframe]; rfl⟩

private theorem frameOf?_select {seq : Int} {seqs} (hseq : seq ∈ seqs) :
    frameOf? (select recs seqs) seq = frameOf? recs seq := by
  cases h : frameOf? (select recs seqs) seq with
  | some => exact (mem_select.mp (mem_of_frameOf? h)).2.symm
  | none =>
    rcases hframe : frameOf? recs seq with _ | frame
    · rfl
    rw [frameOf?, Option.map_eq_none_iff, find?_eq_none] at h
    have := h (seq, frame) (mem_reverse.mpr (mem_select.mpr ⟨hseq, hframe⟩))
    simp at this

private theorem frameOf?_eq_none {seq : Int} (h : ∀ r ∈ recs, r.1 ≠ seq) : frameOf? recs seq = none := by
  cases hframe : frameOf? recs seq with
  | none => rfl
  | some => exact absurd rfl (h _ (mem_of_frameOf? hframe))

private theorem mem_kept {seq : Int} : seq ∈ fs.kept ↔ fs.nextOut - fs.opts.maxMessages ≤ seq ∧ seq < fs.nextOut := by
  rw [FileStore.kept, mem_map]
  constructor
  · rintro ⟨_, hi, rfl⟩
    rw [mem_range] at hi
    omega
  · rintro ⟨_, _⟩
    exact ⟨(seq - (fs.nextOut - fs.opts.maxMessages)).toNat, mem_range.mpr (by omega), by omega⟩

theorem MemoryStore.get_save (m : MemoryStore) (seq seq' : Int) (frame : Bytes) :
    (m.save seq frame).get seq' = if seq = seq' then some frame else m.get seq' := Maps.getElem?_insert ..

theorem Shows.save_frames (h : Shows limit d recs m) (frame : Bytes) (seq : Int) (hseq : m.nextOut + 1 - limit ≤ seq) :
    frameOf? (recs ++ [(m.nextOut, frame)]) seq = (m.save m.nextOut frame).get seq := by
  rw [frameOf?_concat, MemoryStore.get_save, h.frames seq (by omega)]

/-- The frames after a save, in a log that has been compacted or not. -/
theorem Opened.compacted_frames (h : Opened limit fs d recs m) {frame}
    (hcompact : recs' = recs ++ [(m.nextOut, frame)] ∨ recs' = select (recs ++ [(m.nextOut, frame)])
      (fs.after recs m.nextOut).kept) :
    (∀ seq, m.nextOut + 1 - limit ≤ seq → frameOf? recs' seq = (m.save m.nextOut frame).get seq) ∧
      ∀ r ∈ recs', r ∈ recs ++ [(m.nextOut, frame)] := by
  rcases hcompact with rfl | rfl
  · exact ⟨h.shows.save_frames frame, fun _ hr => hr⟩
  have hmem : ∀ r ∈ select (recs ++ [(m.nextOut, frame)]) (fs.after recs m.nextOut).kept, r ∈ recs ++
    [(m.nextOut, frame)] := fun r hr => mem_of_frameOf? (mem_select.mp hr).2
  have hlt : ∀ r ∈ recs ++ [(m.nextOut, frame)], r.1 < m.nextOut + 1 := by
    intro r hr
    rcases mem_append.mp hr with hr | hr
    · have := h.shows.lt_nextOut hr
      omega
    · rw [mem_singleton.mp hr]
      omega
  refine ⟨fun seq hseq => ?_, hmem⟩
  rw [← h.shows.save_frames frame seq hseq]
  by_cases hnew : seq < m.nextOut + 1
  · have hlimit : (fs.after recs m.nextOut).opts.maxMessages = limit := h.limit
    exact frameOf?_select (mem_kept.mpr ⟨by rw [hlimit]; exact hseq, hnew⟩)
  -- there are no records with numbers to come
  have hne : ∀ r ∈ recs ++ [(m.nextOut, frame)], r.1 ≠ seq := fun r hr heq => hnew (heq.symm.trans_lt (hlt r hr))
  rw [frameOf?_eq_none hne, frameOf?_eq_none fun r hr => hne r (hmem r hr)]

theorem storedNums_text {nextIn nextOut : Int} (hin : IsInt nextIn) (hout : IsInt nextOut) :
    storedNums (some (seqNumsText nextIn nextOut)) = some (nextIn, nextOut) := scanSeqNums_text hin hout

section

variable {frame : Bytes} (h : Opened limit fs d recs m) (hframe : frame.length ≤ maxRecordLen)
include h hframe

theorem Opened.storable : ∀ r ∈ recs ++ [(m.nextOut, frame)], Storable r := by
  intro r hr
  rcases mem_append.mp hr with hr | hr
  · exact h.shows.storable r hr
  · rw [mem_singleton.mp hr]
    exact ⟨h.shows.isInt.2.1, h.shows.isInt.2.2, hframe⟩

theorem Opened.saved (hint : IsInt (m.nextOut + 1))
    (hcompact : recs' = recs ++ [(m.nextOut, frame)] ∨ recs' = select (recs ++ [(m.nextOut, frame)])
      (fs.after recs m.nextOut).kept)
    (hd' : SameFiles (withFiles recs' fs.nextIn (m.nextOut + 1) d) d') :
    Opened limit (fs.after recs' m.nextOut) d' recs' (m.save m.nextOut frame) := by
  obtain ⟨hframes, hmem⟩ := h.compacted_frames hcompact
  have hstorable : ∀ r ∈ recs', Storable r := fun r hr => h.storable hframe r (hmem r hr)
  have hmax : (recovered recs').maxSeq ≤ m.nextOut := by
    refine maxSeq_le (by have := h.shows.first; omega) fun r hr => ?_
    rcases mem_append.mp (hmem r hr) with hr | hr
    · exact (h.shows.lt_nextOut hr).le
    · rw [mem_singleton.mp hr]
  refine ⟨⟨?_, rfl, hstorable⟩, ⟨hstorable, hframes, ⟨m.nextOut + 1, ?_, ?_⟩, ?_, ?_, h.shows.isInt.1, hint⟩,
    h.nextIn, rfl, h.closed, h.failed, h.limit⟩
  · rw [hd' .outboundLog rfl, withFiles, update_of_ne (by simp), update_self]
  · rw [hd' .seqNums rfl, withFiles, update_self, h.nextIn]
    exact storedNums_text h.shows.isInt.1 hint
  · exact max_eq_left (by omega)
  · rw [hd' .resetPending rfl, withFiles, update_of_ne (by simp), update_of_ne (by simp), h.shows.pending]
  have := h.shows.first
  show 1 ≤ m.nextOut + 1
  omega

/-- A save that was interrupted while the record was written: it is there, or it is torn. -/
theorem Opened.torn (hint : IsInt (m.nextOut + 1)) (k : Nat) :
    OnDisk limit (update d .outboundLog (some (written recs m.nextOut frame k))) m ∨
      OnDisk limit (update d .outboundLog (some (written recs m.nextOut frame k))) (m.save m.nextOut frame) := by
  obtain ⟨out, hnums, hout⟩ := h.shows.numbers
  have hfirst := h.shows.first
  have hupdate : ∀ {b recs' m'}, (∀ r ∈ recs', Storable r) →
      (∀ seq, m'.nextOut - limit ≤ seq → frameOf? recs' seq = m'.get seq) →
      m'.nextIn = m.nextIn → max out ((recovered recs').maxSeq + 1) = m'.nextOut → 1 ≤ m'.nextOut → IsInt m'.nextOut →
      Shows limit (update d .outboundLog b) recs' m' := by
    intro b recs' m' hstorable hframes hin hout' hfirst' hint'
    refine ⟨hstorable, hframes, ⟨out, ?_, hout'⟩, ?_, hfirst', hin ▸ h.shows.isInt.1, hint'⟩
    · rw [update_of_ne (by simp), hin, hnums]
    · rw [update_of_ne (by simp), h.shows.pending]
  by_cases hk : k < (encodeRecord m.nextOut frame).length
  · left
    refine ⟨recs, (encodeRecord m.nextOut frame).take k, by rw [update_self]; rfl,
      .inr ⟨(m.nextOut, frame), ?_, ?_, ?_⟩, ?_⟩
    · exact ⟨h.shows.isInt.2.1, h.shows.isInt.2.2, hframe⟩
    · exact take_prefix _ _
    · exact (length_take_le _ _).trans_lt hk
    · exact hupdate h.shows.storable h.shows.frames rfl hout hfirst h.shows.isInt.2
  · right
    refine ⟨recs ++ [(m.nextOut, frame)], [], ?_, .inl rfl, ?_⟩
    · rw [update_self, written, take_of_length_le (by omega), encodeLog_concat, append_nil]
      rfl
    refine hupdate (h.storable hframe) (h.shows.save_frames frame) rfl ?_ ?_ hint
    · rw [recovered_concat]
      show max out (max (recovered recs).maxSeq m.nextOut + 1) = m.nextOut + 1
      omega
    · show 1 ≤ m.nextOut + 1
      omega

end

inductive StoreOp
  | save (seq : Int) (frame : Bytes)
  | setNextInSeq (n : Int)
  | get (seq : Int)
  | seqNums

inductive Reply
  | done (err : Option String)
  | frame (frame : Option Bytes)
  | numbers (nextIn nextOut : Int)
deriving DecidableEq

def FileStore.perform (fs : FileStore) : StoreOp → Prog Path (Reply × FileStore)
  | .save seq frame => do
    let (err, fs) ← fs.save seq frame
    .ret (.done err, fs)
  | .setNextInSeq n => do
    let (err, fs) ← fs.setNextInSeq n
    .ret (.done err, fs)
  | .get seq => do
    let frame ← fs.get seq
    .ret (.frame frame, fs)
  | .seqNums => .ret (.numbers fs.seqNums.1 fs.seqNums.2, fs)

/-- A memory store that does not give out frames that are too old. -/
def MemoryStore.perform (limit : Int) (m : MemoryStore) : StoreOp → Reply × MemoryStore
  | .save seq frame => (.done none, m.save seq frame)
  | .setNextInSeq n => (.done none, m.setNextInSeq n)
  | .get seq => (.frame (if m.nextOut - limit ≤ seq then m.get seq else none), m)
  | .seqNums => (.numbers m.seqNums.1 m.seqNums.2, m)

/-- How a store is used: frames of at most 16 MiB are saved under the next outbound number, and numbers have 64 bits.
-/
def StoreOp.Proper (fs : FileStore) : StoreOp → Prop
  | .save seq frame => seq = fs.nextOut ∧ frame.length ≤ maxRecordLen ∧ IsInt (seq + 1)
  | .setNextInSeq n => IsInt n
  | .get _ | .seqNums => True

instance (fs : FileStore) : (op : StoreOp) → Decidable (op.Proper fs)
  | .save seq frame =>
    inferInstanceAs (Decidable (seq = fs.nextOut ∧ frame.length ≤ maxRecordLen ∧ -2 ^ 63 ≤ seq + 1 ∧ seq + 1 < 2 ^ 63))
  | .setNextInSeq n => inferInstanceAs (Decidable (-2 ^ 63 ≤ n ∧ n < 2 ^ 63))
  | .get _ | .seqNums => .isTrue trivial

/-- One operation answers as the memory store does, and takes place completely or not at all when it is interrupted.
-/
theorem Opened.perform (h : Opened limit fs d recs m) {op} (hop : op.Proper fs) :
    Meets False (fs.perform op)
      (fun r d' => r.1 = (m.perform limit op).1 ∧ ∃ recs', Opened limit r.2 d' recs' (m.perform limit op).2)
      (fun d' => OnDisk limit d' m ∨ OnDisk limit d' (m.perform limit op).2) d := by
  have honDisk := h.onDisk
  cases op with
  | save _ frame =>
    obtain ⟨rfl, hframe, hint⟩ := hop
    rw [h.nextOut] at hint ⊢
    have hstorable : Storable (m.nextOut, frame) := ⟨h.shows.isInt.2.1, h.shows.isInt.2.2, hframe⟩
    refine .bind ((save_meets h.indexed h.closed h.failed hstorable).mono (fun r d' hr => ?_) fun d' hd' => ?_)
    · obtain ⟨recs', rfl, hcompact, hd'⟩ := hr
      have hsaved := h.saved hframe hint hcompact hd'
      exact .ret (.inr hsaved.onDisk) ⟨rfl, recs', hsaved⟩
    · rcases hd' with ⟨k, hd'⟩ | ⟨_, hcompact, hd'⟩
      · exact (h.torn hframe hint k).imp (·.sameFiles hd') (·.sameFiles hd')
      · exact .inr (h.saved hframe hint hcompact hd').onDisk
  | setNextInSeq n =>
    have hset : ∀ {d'}, Replaced .seqNums (seqNumsText n fs.nextOut) d d' →
        Opened limit { fs with nextIn := n } d' recs (m.setNextInSeq n) := by
      intro d' hd'
      obtain ⟨_, -, _⟩ := h.shows.numbers
      refine ⟨⟨(hd' .outboundLog rfl).trans ?_, h.indexed.index, h.indexed.storable⟩,
        ⟨h.shows.storable, h.shows.frames, ⟨m.nextOut, ?_, ?_⟩, (hd' .resetPending rfl).trans ?_, h.shows.first, hop,
          h.shows.isInt.2⟩, rfl,
        h.nextOut, h.closed, h.failed, h.limit⟩
      · rw [update_of_ne (by simp), h.indexed.log]
      · rw [hd' .seqNums rfl, update_self, h.nextOut]
        exact storedNums_text hop h.shows.isInt.2
      · show max m.nextOut _ = m.nextOut
        omega
      · rw [update_of_ne (by simp), h.shows.pending]
    refine .bind ((setNextInSeq_meets h.closed h.failed n d).mono (fun r d' hr => ?_) fun d' hd' => ?_)
    · obtain ⟨rfl, hd'⟩ := hr
      exact .ret (.inr (hset hd').onDisk) ⟨rfl, recs, hset hd'⟩
    · exact hd'.imp honDisk.sameFiles fun hd' => (hset hd').onDisk
  | get seq =>
    refine .bind ((get_meets h.indexed h.closed seq).mono (fun r d' hr => ?_) fun d' hd' => .inl (hd' ▸ honDisk))
    obtain ⟨rfl, rfl⟩ := hr
    exact .ret (.inl honDisk) ⟨congrArg _ (h.kept_frame seq), recs, h⟩
  | seqNums =>
    refine .ret (.inl honDisk) ⟨?_, recs, h⟩
    show Reply.numbers fs.nextIn fs.nextOut = .numbers m.nextIn m.nextOut
    rw [h.nextIn, h.nextOut]

/-- What is seen of a store: openings, operations that ended with their answers, and those that were killed. -/
inductive StoreEvent
  | opened (ok : Bool)
  | completed (op : StoreOp) (reply : Reply)
  | interrupted (op : StoreOp)

/-- The files of a store that has not been used since it was created or reset. -/
structure NewFiles (d : Files Path) : Prop where
  log : (d .outboundLog).getD [] = []
  numbers : storedNums (d .seqNums) = some (1, 1)
  pending : d .resetPending = none

/-- The runs of a store since the last reset, with kills in every operation and opening. -/
inductive StoreRun (dir : String) (opts : FileStoreOptions) : List StoreEvent → Option FileStore → Files Path → Prop
  | new {d : Files Path} : NewFiles d → StoreRun dir opts [] none d
  | reset {fs fs' : FileStore} {d d' : Files Path} : fs.opts = opts.withDefaults → fs.closed = false →
    fs.failed = none → d .outboundLog ≠ none → d .resetPending = none → Exec False fs.reset d d' (some fs') →
    StoreRun dir opts [] (some fs') d'
  | opens {evs d d' r} : StoreRun dir opts evs none d → Exec False (openFileStore dir opts).run d d' (some r) →
    StoreRun dir opts (evs ++ [.opened r.isOk]) r.toOption d'
  | opensKilled {evs d d'} : StoreRun dir opts evs none d → Exec False (openFileStore dir opts).run d d' none →
    StoreRun dir opts evs none d'
  | killed {evs d fs} : StoreRun dir opts evs (some fs) d → StoreRun dir opts evs none d
  | completes {evs d d' fs fs' op reply} : StoreRun dir opts evs (some fs) d → op.Proper fs →
    Exec False (fs.perform op) d d' (some (reply, fs')) → StoreRun dir opts (evs ++ [.completed op reply]) (some fs') d'
  | interrupted {evs d d' fs op} : StoreRun dir opts evs (some fs) d → op.Proper fs →
    Exec False (fs.perform op) d d' none → StoreRun dir opts (evs ++ [.interrupted op]) none d'

/-- The runs of a memory store: an operation that was interrupted took place, or did not. -/
inductive MemoryRun (limit : Int) : List StoreEvent → MemoryStore → Prop
  | new : MemoryRun limit [] {}
  | opened {evs m} : MemoryRun limit evs m → MemoryRun limit (evs ++ [.opened true]) m
  | completed {evs m} (op : StoreOp) : MemoryRun limit evs m →
    MemoryRun limit (evs ++ [.completed op (m.perform limit op).1]) (m.perform limit op).2
  | visible {evs m} (op : StoreOp) : MemoryRun limit evs m → MemoryRun limit (evs ++ [.interrupted op])
      (m.perform limit op).2
  | invisible {evs m} (op : StoreOp) : MemoryRun limit evs m → MemoryRun limit (evs ++ [.interrupted op]) m

/-- The store shows the memory store, whether it is open or not. -/
def Related (limit : Int) (d : Files Path) (m : MemoryStore) : Option FileStore → Prop
  | none => OnDisk limit d m
  | some fs => ∃ recs, Opened limit fs d recs m

theorem NewFiles.onDisk (h : NewFiles d) : OnDisk limit d {} := by
  refine ⟨[], [], h.log, .inl rfl, nofun, fun _ _ => ?_, ⟨1, h.numbers, ?_⟩, h.pending, ?_, ?_, ?_⟩
  · simp [frameOf?, MemoryStore.get]
  · decide
  · decide
  · exact ⟨by decide, by decide⟩
  · exact ⟨by decide, by decide⟩

theorem Opened.new (hlog : d .outboundLog = some []) (hnums : d .seqNums = some (seqNumsText 1 1))
    (hpending : d .resetPending = none)
    (hclosed : fs.closed = false) (hfailed : fs.failed = none) (hlimit : fs.opts.maxMessages = limit) :
    Opened limit { fs with index := ∅, nextIn := 1, nextOut := 1 } d [] {} := by
  refine ⟨⟨hlog, rfl, nofun⟩, ⟨nofun, fun _ _ => ?_, ⟨1, ?_, ?_⟩, hpending, ?_, ?_, ?_⟩, rfl, rfl, hclosed,
    hfailed, hlimit⟩
  · simp [frameOf?, MemoryStore.get]
  · rw [hnums]
    exact storedNums_text ⟨by decide, by decide⟩ ⟨by decide, by decide⟩
  · decide
  · decide
  · exact ⟨by decide, by decide⟩
  · exact ⟨by decide, by decide⟩

theorem Opened.of_reset (hd : SameFiles (withFiles [] 1 1 d) d') (hpending : d .resetPending = none)
    (hclosed : fs.closed = false) (hfailed : fs.failed = none) (hlimit : fs.opts.maxMessages = limit) :
    Opened limit { fs with index := ∅, nextIn := 1, nextOut := 1 } d' [] {} := by
  refine .new ?_ ?_ ?_ hclosed hfailed hlimit
  · rw [hd .outboundLog rfl, withFiles, update_of_ne (by simp), update_self, encodeLog_nil]
  · rw [hd .seqNums rfl, withFiles, update_self]
  · rw [hd .resetPending rfl, withFiles, update_of_ne (by simp), update_of_ne (by simp), hpending]

theorem truncate_log (hlog : d .outboundLog ≠ none) :
    (Op.truncate .outboundLog 0).apply d = update d .outboundLog (some []) := by
  obtain ⟨_, hb⟩ := Option.ne_none_iff_exists'.mp hlog
  simp [Op.apply, hb]

theorem reset_meets (hclosed : fs.closed = false) (hlog : d .outboundLog ≠ none) :
    Meets False fs.reset
      (fun fs' d' => fs' = { fs with index := ∅, nextIn := 1, nextOut := 1 } ∧ SameFiles (withFiles [] 1 1 d) d')
      (fun d' => SameFiles d d' ∨ SameFiles (update d .outboundLog (some [])) d' ∨ SameFiles (withFiles [] 1 1 d) d')
      d := by
  rw [FileStore.reset, if_neg (by simp [hclosed])]
  refine .op rfl (.inl (.refl d)) ?_
  rw [truncate_log hlog]
  refine .bind ((syncLocked_meets _ _).mono (fun r d₁ hr => ?_) fun d₁ hd₁ => .inr (.inl (hd₁ ▸ .refl _)))
  obtain ⟨rfl, rfl⟩ := hr
  refine .bind ((writeSeqNumsLocked_meets _ _).mono (fun r d₂ hr => ?_) fun d₂ hd₂ => .inr hd₂)
  obtain ⟨rfl, hd₂⟩ := hr
  exact .ret (.inr (.inr hd₂)) ⟨rfl, hd₂⟩

theorem StoreRun.related {dir evs st}
    (h : StoreRun dir opts evs st d) :
    ∃ m, MemoryRun opts.withDefaults.maxMessages evs m ∧ Related opts.withDefaults.maxMessages d m st := by
  induction h with
  | new hd => exact ⟨{}, .new, hd.onDisk⟩
  | @reset _ _ _ _ hopts hclosed hfailed hlog hpending hexec =>
    obtain ⟨rfl, hd'⟩ := (reset_meets hclosed hlog).1 _ _ hexec
    exact ⟨{}, .new, [], .of_reset hd' hpending hclosed hfailed (by rw [← hopts])⟩
  | opens _ hexec ih =>
    obtain ⟨m, hm, hrel⟩ := ih
    obtain ⟨_, recs, rfl, hopened⟩ := (OnDisk.open hrel rfl).1 _ _ hexec
    exact ⟨m, hm.opened, recs, hopened⟩
  | opensKilled _ hexec ih =>
    obtain ⟨m, hm, hrel⟩ := ih
    exact ⟨m, hm, (OnDisk.open hrel rfl).2 _ hexec⟩
  | killed _ ih =>
    obtain ⟨m, hm, _, hopened⟩ := ih
    exact ⟨m, hm, hopened.onDisk⟩
  | @completes _ _ _ _ _ op _ _ hop hexec ih =>
    obtain ⟨_, hm, _, hopened⟩ := ih
    obtain ⟨hreply, hopened'⟩ := (hopened.perform hop).1 _ _ hexec
    cases hreply
    exact ⟨_, hm.completed op, hopened'⟩
  | @interrupted _ _ _ _ op _ hop hexec ih =>
    obtain ⟨m, hm, _, hopened⟩ := ih
    rcases (hopened.perform hop).2 _ hexec with hdisk | hdisk
    · exact ⟨m, hm.invisible op, hdisk⟩
    · exact ⟨_, hm.visible op, hdisk⟩

/-- All answers of a store in a run with kills are those of one memory store, on which every interrupted operation
took place or did not. -/
theorem store_refines_memory {dir : String} {opts : FileStoreOptions} {evs : List StoreEvent} {st : Option FileStore}
    (h : StoreRun dir opts evs st d) : ∃ m, MemoryRun opts.withDefaults.maxMessages evs m := by
  obtain ⟨m, hm, -⟩ := h.related
  exact ⟨m, hm⟩

/-- A step of a run: an opening or an operation, to its end or up to a kill after `n` file operations and `k` bytes.
-/
inductive StoreStep
  | opens
  | opensKilled (n k : Nat)
  | completes (op : StoreOp)
  | interrupted (op : StoreOp) (n k : Nat)

abbrev StoreState := List StoreEvent × Option FileStore × Files Path

def StoreStep.run (dir : String) (opts : FileStoreOptions) : StoreStep → StoreState → Option StoreState
  | .opens, (evs, none, d) =>
    let r := (openFileStore dir opts).run.eval d
    some (evs ++ [.opened r.1.isOk], r.1.toOption, r.2)
  | .opensKilled n k, (evs, none, d) => some (evs, none, (openFileStore dir opts).run.kill k n d)
  | .completes op, (evs, some fs, d) =>
    let r := (fs.perform op).eval d
    if op.Proper fs then some (evs ++ [.completed op r.1.1], some r.1.2, r.2) else none
  | .interrupted op n k, (evs, some fs, d) =>
    if op.Proper fs then some (evs ++ [.interrupted op], none, (fs.perform op).kill k n d) else none
  | _, _ => none

theorem StoreRun.step {dir : String} {s s' : StoreState} (h : StoreRun dir opts s.1 s.2.1 s.2.2)
    {a : StoreStep} (ha : a.run dir opts s = some s') : StoreRun dir opts s'.1 s'.2.1 s'.2.2 := by
  unfold StoreStep.run at ha
  split at ha
  · cases ha
    exact h.opens (exec_eval ..)
  · cases ha
    exact h.opensKilled (exec_kill ..)
  · split at ha
    · rename_i hop
      cases ha
      exact h.completes hop (exec_eval ..)
    · cases ha
  · split at ha
    · rename_i hop
      cases ha
      exact h.interrupted hop (exec_kill ..)
    · cases ha
  · cases ha

theorem StoreRun.of_computed {dir : String} (steps : List StoreStep) {s : StoreState}
    (h : StoreRun dir opts s.1 s.2.1 s.2.2) {P : StoreState → Bool}
    (hsteps : (steps.foldlM (fun s (a : StoreStep) => a.run dir opts s) s).any P = true) :
    ∃ s' : StoreState, StoreRun dir opts s'.1 s'.2.1 s'.2.2 ∧ P s' = true := by
  induction steps generalizing s with
  | nil => exact ⟨s, h, hsteps⟩
  | cons a _ ih =>
    rw [foldlM_cons] at hsteps
    cases hs : a.run dir opts s with
    | none =>
      rw [hs] at hsteps
      cases hsteps
    | some =>
      rw [hs] at hsteps
      exact ih (h.step hs) hsteps

theorem NewFiles.empty : NewFiles fun _ => none := ⟨rfl, rfl, rfl⟩

def lastReply (evs : List StoreEvent) : Option Reply :=
  match evs.getLast? with
  | some (.completed _ reply) => some reply
  | _ => none

/-- The second frame is torn: the process is killed when ten bytes of its record are written. -/
theorem store_refines_memory_torn : ∃ evs st d m, StoreRun "s" {} evs st d ∧ lastReply evs = some (.numbers 1 2) ∧
    MemoryRun 100000 evs m := by
  have hnew : StoreRun "s" {} [] none fun _ => none := .new .empty
  obtain ⟨s, hrun, hs⟩ :=
    StoreRun.of_computed [.opens, .completes (.save 1 [7]), .interrupted (.save 2 [8]) 1 10, .opens,
    .completes .seqNums] (s := ([], none, fun _ => none)) hnew (P := fun s => lastReply s.1 = some (.numbers 1 2))
    (by decide +kernel)
  obtain ⟨m, hm⟩ := store_refines_memory hrun
  exact ⟨s.1, s.2.1, s.2.2, m, hrun, of_decide_eq_true hs, hm⟩

end Fxp.Fix
