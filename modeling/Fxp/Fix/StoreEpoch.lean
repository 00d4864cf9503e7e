import Fxp.Fix.StoreReset

/-!
# Scheduled resets

`advanceEpoch` copies the files of the store into an archive, leaves a note that a reset is under way, resets the
store, records the epoch and removes the note. Up to the note the store is as it was; from then on the reset is
finished, now or when the store is opened again.
-/

namespace Fxp.Fix

open Durable Function

variable {limit : Int} {d d' d₁ : Files Path} {fs : FileStore} {recs : List (Int × Bytes)}
    {m : MemoryStore} {epoch : Int}

/-- The epoch can be read, and files are in the archive only if they are there. -/
structure EpochFiles (d : Files Path) : Prop where
  epoch : d .epoch = none ∨ ∃ e, IsInt e ∧ d .epoch = some (itoa e)
  archive : d .seqNums = none → ∀ e, d (.archive e .seqNums) = none

/-- The log and the numbers may be different, but the numbers do not go. -/
structure LogOnly (d d' : Files Path) : Prop where
  others : ∀ p, p.isTmp = false → p ≠ .outboundLog → p ≠ .seqNums → d' p = d p
  numbers : d' .seqNums = none → d .seqNums = none

theorem LogOnly.of_same (h : SameFiles d d') : LogOnly d d' :=
  ⟨fun p hp _ _ => h p hp, fun hn => (h .seqNums rfl).symm.trans hn⟩

theorem LogOnly.of_log {b : Option Bytes} (h : SameFiles (update d .outboundLog b) d') : LogOnly d d' := by
  refine ⟨fun p hp hlog _ => (h p hp).trans (update_of_ne hlog ..), fun hn => ?_⟩
  rwa [h .seqNums rfl, update_of_ne (by simp)] at hn

theorem LogOnly.of_numbers {b : Bytes} {d₀ : Files Path} (h₀ : LogOnly d d₀)
    (h : SameFiles (update d₀ .seqNums (some b)) d') : LogOnly d d' := by
  refine ⟨fun p hp hlog hnums => ?_, fun hn => ?_⟩
  · rw [h p hp, update_of_ne hnums, h₀.others p hp hlog hnums]
  · rw [h .seqNums rfl, update_self] at hn
    cases hn

theorem LogOnly.trans {d₂} (h : LogOnly d d₁) (h' : LogOnly d₁ d₂) : LogOnly d d₂ :=
  ⟨fun p hp hlog hnums => (h'.others p hp hlog hnums).trans (h.others p hp hlog hnums), fun hn =>
    h.numbers (h'.numbers hn)⟩

theorem LogOnly.epochFiles (h : LogOnly d d') (hd : EpochFiles d) : EpochFiles d' := by
  refine ⟨?_, fun hn e => ?_⟩
  · rw [h.others .epoch rfl (by simp) (by simp)]
    exact hd.epoch
  · rw [h.others _ rfl (by simp) (by simp)]
    exact hd.archive (h.numbers hn) e

theorem LogOnly.recordedEpoch (h : LogOnly d d') : recordedEpoch d' = Fix.recordedEpoch d := by
  rw [Fix.recordedEpoch, h.others .epoch rfl (by simp) (by simp)]
  rfl

theorem Opened.perform_logOnly (h : Opened limit fs d recs m) {op} (hop : op.Proper fs) :
    Meets False (fs.perform op) (fun _ d' => LogOnly d d') (fun d' => LogOnly d d') d := by
  have hrefl : LogOnly d d := .of_same (.refl d)
  have hwith : ∀ {recs' nextIn nextOut d'}, SameFiles (withFiles recs' nextIn nextOut d) d' → LogOnly d d' :=
    fun hd' => (LogOnly.of_log (.refl _)).of_numbers hd'
  cases op with
  | save _ frame =>
    obtain ⟨rfl, hframe, _⟩ := hop
    have hstorable : Storable (fs.nextOut, frame) := by
      rw [h.nextOut]
      exact ⟨h.shows.isInt.2.1, h.shows.isInt.2.2, hframe⟩
    refine .bind ((save_meets h.indexed h.closed h.failed hstorable).mono (fun r d' hr => ?_) fun d' hd' => ?_)
    · obtain ⟨_, rfl, -, hd'⟩ := hr
      exact .ret (hwith hd') (hwith hd')
    · rcases hd' with ⟨_, hd'⟩ | ⟨_, -, hd'⟩
      · exact .of_log hd'
      · exact hwith hd'
  | setNextInSeq n =>
    refine .bind ((setNextInSeq_meets h.closed h.failed n d).mono (fun r d' hr => ?_) fun d' hd' => ?_)
    · obtain ⟨rfl, hd'⟩ := hr
      exact .ret (hrefl.of_numbers hd') (hrefl.of_numbers hd')
    · exact hd'.elim .of_same hrefl.of_numbers
  | get seq =>
    refine .bind ((get_meets h.indexed h.closed seq).mono (fun r d' hr => ?_) fun d' hd' => ?_)
    · obtain ⟨rfl, -⟩ := hr
      exact .ret hrefl hrefl
    · rw [hd']
      exact hrefl
  | seqNums => exact .ret hrefl hrefl

/-- A reset to the epoch is under way: the note is there, and the archive holds the files `log` and `nums`. -/
structure Pending (epoch : Int) (log nums : Option Bytes) (d : Files Path) : Prop where
  note : d .resetPending = some (itoa epoch)
  log : d (.archive epoch .outboundLog) = log
  nums : d (.archive epoch .seqNums) = nums
  isInt : IsInt epoch
  files : EpochFiles d

structure Finished (limit epoch : Int) (log nums : Option Bytes) (d : Files Path) : Prop where
  onDisk : OnDisk limit d {}
  recorded : recordedEpoch d = epoch
  log : d (.archive epoch .outboundLog) = log
  nums : d (.archive epoch .seqNums) = nums
  files : EpochFiles d

variable {log nums : Option Bytes}

theorem EpochFiles.sameFiles (h : EpochFiles d) (hd : SameFiles d d') : EpochFiles d' :=
    (LogOnly.of_same hd).epochFiles h

theorem Pending.resetting (h : Pending epoch log nums d) (hd : Resetting epoch d d') : Pending epoch log nums d' := by
  have hother : ∀ e f, d' (.archive e f) = d (.archive e f) := fun e f => hd.others _ rfl (by simp) (by simp) (by simp)
  refine ⟨?_, (hother ..).trans h.log, (hother ..).trans h.nums, h.isInt, ?_, fun hn e => ?_⟩
  · rw [hd.others _ rfl (by simp) (by simp) (by simp), h.note]
  · rcases hd.epoch with hd | hd
    · rw [hd]
      exact h.files.epoch
    · exact .inr ⟨epoch, h.isInt, hd⟩
  rw [hother]
  rcases hd.numbers with hd | hd
  · exact h.files.archive (hd.symm.trans hn) e
  · rw [hd] at hn
    cases hn

theorem Pending.restarted (h : Pending epoch log nums d) (hd : Restarted epoch d d') :
    Finished limit epoch log nums d' := by
  have hother : ∀ e f, d' (.archive e f) = d (.archive e f) := fun e f =>
    hd.others _ rfl (by simp) (by simp) (by simp) (by simp)
  refine ⟨NewFiles.onDisk ⟨?_, ?_, hd.note⟩, recordedEpoch_itoa h.isInt hd.epoch, (hother ..).trans h.log,
    (hother ..).trans h.nums,
    .inr ⟨epoch, h.isInt, hd.epoch⟩, fun hn e => ?_⟩
  · rw [hd.log]
    rfl
  · rw [hd.numbers]
    exact storedNums_text ⟨by decide, by decide⟩ ⟨by decide, by decide⟩
  · rw [hd.numbers] at hn
    cases hn

/-- Nothing is different outside the archive of the epoch. -/
def Archiving (epoch : Int) (d d' : Files Path) : Prop :=
  ∀ p, p.isTmp = false → (∀ f, p ≠ .archive epoch f) → d' p = d p

theorem Archiving.trans {d₂} (h : Archiving epoch d d₁) (h' : Archiving epoch d₁ d₂) : Archiving epoch d d₂ :=
  fun p hp hne => (h' p hp hne).trans (h p hp hne)

theorem Archiving.of_same (h : SameFiles d d') : Archiving epoch d d' := fun p hp _ => h p hp

theorem Archiving.of_replaced {f data} (h : Replaced (.archive epoch f) data d d') : Archiving epoch d d' :=
  fun p hp hne => (h p hp).trans (update_of_ne (hne f) ..)

theorem Archiving.epochFiles (h : Archiving epoch d d') (hd : EpochFiles d)
    (hnums : d .seqNums = none → d' (.archive epoch .seqNums) = none) : EpochFiles d' := by
  refine ⟨?_, fun hn e => ?_⟩
  · rw [h .epoch rfl (by simp)]
    exact hd.epoch
  rw [h .seqNums rfl (by simp)] at hn
  by_cases he : e = epoch
  · rw [he]
    exact hnums hn
  · rw [h (.archive e .seqNums) rfl (by simp [he])]
    exact hd.archive hn e

private theorem archiveFile_meets (epoch : Int) (file : Path) (d : Files Path) :
    Meets False (FileStore.archiveFile epoch file).run
      (fun r d' => r = .ok () ∧
        (d file = none ∧ d' = d ∨ ∃ raw, d file = some raw ∧ Replaced (.archive epoch file) raw d d'))
      (fun d' => SameFiles d d' ∨ ∃ raw, d file = some raw ∧ Replaced (.archive epoch file) raw d d') d := by
  refine .attempt rfl (.inl (.refl d)) ?_
  rw [show Op.reply (.read file) d = d file from rfl]
  rcases hfile : d file with _ | raw
  · exact .ret (.inl (.refl d)) ⟨rfl, .inl ⟨rfl, rfl⟩⟩
  refine (durableFile_meets _ raw d).mono (fun r d' hr => ?_) fun d' hd' => hd'.imp_right fun hd' => ⟨raw, rfl, hd'⟩
  exact ⟨hr.1, .inr ⟨raw, rfl, hr.2⟩⟩

theorem EpochFiles.recorded (h : EpochFiles d) : (d .epoch = none ∧ recordedEpoch d = 0) ∨
    ∃ raw, d .epoch = some raw ∧ FileStore.parseInt raw = .ok (recordedEpoch d) := by
  rcases h.epoch with hnone | ⟨e, he, hepoch⟩
  · exact .inl ⟨hnone, by rw [recordedEpoch, hnone]⟩
  refine .inr ⟨_, hepoch, ?_⟩
  have hparse := parseInt_itoa he
  rw [recordedEpoch, hepoch]
  simp only
  unfold FileStore.parseInt at hparse ⊢
  cases hatoi : atoi (trimSpace (itoa e)) with
  | none =>
    rw [hatoi] at hparse
    cases hparse
  | some => rfl

private theorem archive_meets (hfiles : EpochFiles d) (hint : IsInt epoch) (hlog : d .outboundLog ≠ none) :
    Meets False (do
        let _ ← (Attempt.op .sync : Attempt Path (Option Bytes))
        FileStore.archiveFile epoch .outboundLog
        FileStore.archiveFile epoch .seqNums
        durableFile .resetPending (itoa epoch)
        pure true : Attempt Path Bool).run
      (fun r d' => r = .ok true ∧ Pending epoch (d .outboundLog) (d .seqNums) d' ∧ d' .outboundLog = d .outboundLog)
      (fun d' => Archiving epoch d d' ∧ EpochFiles d' ∨ Pending epoch (d .outboundLog) (d .seqNums) d') d := by
  have hcrash : ∀ {d'}, Archiving epoch d d' → (d .seqNums = none → d' (.archive epoch .seqNums) = none) →
      Archiving epoch d d' ∧ EpochFiles d' ∨ Pending epoch (d .outboundLog) (d .seqNums) d' :=
    fun h hn => .inl ⟨h, h.epochFiles hfiles hn⟩
  have hstale : d .seqNums = none → d (.archive epoch .seqNums) = none := fun hn => hfiles.archive hn epoch
  refine .attempt rfl (hcrash (.of_same (.refl d)) hstale) ?_
  rw [Op.apply_sync]
  -- the log
  refine .andThen ((archiveFile_meets epoch .outboundLog d).mono (fun r d₁ hr => ?_) fun d₁ hd₁ => ?_)
  rotate_left
  · rcases hd₁ with hd₁ | ⟨_, -, hd₁⟩
    · exact hcrash (.of_same hd₁) fun hn => (hd₁ _ rfl).trans (hstale hn)
    · exact hcrash (.of_replaced hd₁) fun hn => (hd₁ _ rfl).trans ((update_of_ne (by simp) ..).trans (hstale hn))
  obtain ⟨rfl, ⟨hnone, -⟩ | ⟨raw, hraw, hd₁⟩⟩ := hr
  · exact absurd hnone hlog
  have harchiving₁ : Archiving epoch d d₁ := .of_replaced hd₁
  have hlog₁ : d₁ (.archive epoch .outboundLog) = d .outboundLog := by rw [hd₁ _ rfl, update_self, hraw]
  have hnums₁ : d₁ (.archive epoch .seqNums) = d (.archive epoch .seqNums) :=
    (hd₁ _ rfl).trans (update_of_ne (by simp) ..)
  have hsame₁ : d₁ .seqNums = d .seqNums := harchiving₁ _ rfl (by simp)
  -- the numbers
  refine .andThen ((archiveFile_meets epoch .seqNums d₁).mono (fun r d₂ hr => ?_) fun d₂ hd₂ => ?_)
  rotate_left
  · rcases hd₂ with hd₂ | ⟨_, hraw₂, hd₂⟩
    · exact hcrash (harchiving₁.trans (.of_same hd₂)) fun hn => (hd₂ _ rfl).trans (hnums₁.trans (hstale hn))
    refine hcrash (harchiving₁.trans (.of_replaced hd₂)) fun hn => ?_
    rw [← hsame₁, hraw₂] at hn
    cases hn
  obtain ⟨rfl, hr⟩ := hr
  have hcopies : Archiving epoch d d₂ ∧ d₂ (.archive epoch .outboundLog) = d .outboundLog ∧
      d₂ (.archive epoch .seqNums) = d .seqNums := by
    rcases hr with ⟨hnone, rfl⟩ | ⟨_, hraw₂, hd₂⟩
    · refine ⟨harchiving₁, hlog₁, ?_⟩
      rw [hnums₁, hstale (hsame₁ ▸ hnone), ← hsame₁, hnone]
    refine ⟨harchiving₁.trans (.of_replaced hd₂), ?_, ?_⟩
    · rw [hd₂ _ rfl, update_of_ne (by simp), hlog₁]
    · rw [hd₂ _ rfl, update_self, ← hsame₁, hraw₂]
  obtain ⟨harchiving₂, hlog₂, hnums₂⟩ := hcopies
  have hfiles₂ : EpochFiles d₂ := harchiving₂.epochFiles hfiles fun hn => hnums₂.trans hn
  -- the note
  have hpending : ∀ {d₃}, Replaced .resetPending (itoa epoch) d₂ d₃ →
      Pending epoch (d .outboundLog) (d .seqNums) d₃ := by
    intro d₃ hd₃
    have hother : ∀ {p}, p.isTmp = false → p ≠ .resetPending → d₃ p = d₂ p := fun hp hne =>
      (hd₃ _ hp).trans (update_of_ne hne ..)
    refine ⟨?_, (hother rfl (by simp)).trans hlog₂, (hother rfl (by simp)).trans hnums₂, hint, ?_, fun hn e => ?_⟩
    · rw [hd₃ _ rfl, update_self]
    · rw [hother rfl (by simp)]
      exact hfiles₂.epoch
    · rw [hother rfl (by simp)] at hn ⊢
      exact hfiles₂.archive hn e
  refine .andThen ((durableFile_meets .resetPending (itoa epoch) d₂).mono (fun r d₃ hr => ?_) fun d₃ hd₃ => ?_)
  · obtain ⟨rfl, hd₃⟩ := hr
    refine .ret (.inr (hpending hd₃)) ⟨rfl, hpending hd₃, ?_⟩
    rw [hd₃ _ rfl, update_of_ne (by simp), harchiving₂ _ rfl (by simp)]
  · rcases hd₃ with hd₃ | hd₃
    · exact .inl ⟨harchiving₂.trans (.of_same hd₃), hfiles₂.sameFiles hd₃⟩
    · exact .inr (hpending hd₃)

private theorem prepareEpoch_meets (hfiles : EpochFiles d) (hint : IsInt epoch) (hlog : d .outboundLog ≠ none) :
    Meets False (FileStore.prepareEpoch epoch).run
      (fun r d' => epoch ≤ recordedEpoch d ∧ r = .ok false ∧ d' = d ∨
        recordedEpoch d < epoch ∧ r = .ok true ∧ Pending epoch (d .outboundLog) (d .seqNums) d' ∧
        d' .outboundLog = d .outboundLog)
      (fun d' => d' = d ∨ recordedEpoch d < epoch ∧
        (Archiving epoch d d' ∧ EpochFiles d' ∨ Pending epoch (d .outboundLog) (d .seqNums) d')) d := by
  -- behind the reading of the epoch
  have hrest : Meets False (if epoch ≤ recordedEpoch d then pure false else do
        let _ ← (Attempt.op .sync : Attempt Path (Option Bytes))
        FileStore.archiveFile epoch .outboundLog
        FileStore.archiveFile epoch .seqNums
        durableFile .resetPending (itoa epoch)
        pure true : Attempt Path Bool).run
      (fun r d' => epoch ≤ recordedEpoch d ∧ r = .ok false ∧ d' = d ∨
        recordedEpoch d < epoch ∧ r = .ok true ∧ Pending epoch (d .outboundLog) (d .seqNums) d' ∧
        d' .outboundLog = d .outboundLog)
      (fun d' => d' = d ∨ recordedEpoch d < epoch ∧
        (Archiving epoch d d' ∧ EpochFiles d' ∨ Pending epoch (d .outboundLog) (d .seqNums) d')) d := by
    by_cases hle : epoch ≤ recordedEpoch d
    · rw [if_pos hle]
      exact .ret (.inl rfl) (.inl ⟨hle, rfl, rfl⟩)
    rw [if_neg hle]
    have hlt : recordedEpoch d < epoch := Int.not_le.mp hle
    exact (archive_meets hfiles hint hlog).mono (fun _ _ hr => .inr ⟨hlt, hr⟩) fun _ hd' => .inr ⟨hlt, hd'⟩
  refine .attempt rfl (.inl rfl) ?_
  rcases hfiles.recorded with ⟨hnone, hzero⟩ | ⟨_, hraw, hparse⟩
  · simp only [Op.reply, hnone]
    rw [hzero] at hrest ⊢
    exact hrest
  · simp only [Op.reply, hraw, hparse]
    exact hrest

private theorem advanceEpoch_meets (h : Opened limit fs d recs m) (hfiles : EpochFiles d) (hint : IsInt epoch) :
    Meets False (fs.advanceEpoch epoch)
      (fun r d' => epoch ≤ recordedEpoch d ∧ r = (none, fs) ∧ d' = d ∨
        recordedEpoch d < epoch ∧ r.1 = none ∧ Opened limit r.2 d' [] {} ∧ Finished limit epoch (d .outboundLog)
        (d .seqNums) d')
      (fun d' => d' = d ∨ recordedEpoch d < epoch ∧ (Archiving epoch d d' ∧ EpochFiles d' ∨
        Pending epoch (d .outboundLog) (d .seqNums) d' ∨ Finished limit epoch (d .outboundLog) (d .seqNums) d')) d := by
  have hwritable : fs.writableLocked = none := by rw [FileStore.writableLocked, if_neg (by simp [h.closed]), h.failed]
  have hlog := h.log_ne_none
  rw [FileStore.advanceEpoch, hwritable]
  refine .bind ((prepareEpoch_meets hfiles hint hlog).mono (fun r d₁ hr => ?_) fun d₁ hd₁ => ?_)
  · rcases hr with ⟨hle, rfl, rfl⟩ | ⟨hlt, rfl, hpending, hlog₁⟩
    · exact .ret (.inl rfl) (.inl ⟨hle, rfl, rfl⟩)
    refine .bind ((finishEpochReset_meets (hlog₁ ▸ hlog) epoch fs).mono (fun r d₂ hr => ?_) fun d₂ hd₂ => ?_)
    · obtain ⟨rfl, hrestarted⟩ := hr
      have hfinished : Finished limit epoch (d .outboundLog) (d .seqNums) d₂ := hpending.restarted hrestarted
      exact .ret (.inr ⟨hlt, .inr (.inr hfinished)⟩)
        (.inr ⟨hlt, rfl, .new hrestarted.log hrestarted.numbers hrestarted.note h.closed h.failed h.limit, hfinished⟩)
    · exact .inr ⟨hlt, .inr (hd₂.imp hpending.resetting hpending.restarted)⟩
  · exact hd₁.imp_right (And.imp_right (Or.imp_right .inl))

/-- The store is opened, after any number of openings in which the process was killed. -/
inductive Reopened (dir : String) (opts : FileStoreOptions) : Files Path → Except String FileStore → Files Path → Prop
  | opens {d d' r} : Exec False (openFileStore dir opts).run d d' (some r) → Reopened dir opts d r d'
  | killed {d d₁ d' r} : Exec False (openFileStore dir opts).run d d₁ none → Reopened dir opts d₁ r d' →
      Reopened dir opts d r d'

variable {dir : String} {opts : FileStoreOptions} {r : Except String FileStore}

private theorem open_logOnly (hpending : d .resetPending = none) (dir : String) (opts : FileStoreOptions) :
    Meets False (openFileStore dir opts).run (fun _ d' => LogOnly d d') (fun d' => LogOnly d d') d := by
  have hlog : ∀ {b d'}, d' = update d .outboundLog b → LogOnly d d' := by
    rintro _ _ rfl
    exact .of_log (.refl _)
  refine (open_scan rfl hpending dir opts).mono (fun _ d' hr => hlog hr.2) fun d' hd' => ?_
  rcases hd' with rfl | hd' | hd'
  · exact .of_same (.refl _)
  · exact hlog hd'
  · exact hlog hd'

theorem OnDisk.pending (h : OnDisk limit d m) : d .resetPending = none := by
  obtain ⟨_, _, _, _, hshows⟩ := h
  exact hshows.pending

theorem OnDisk.reopened (h : OnDisk limit d m) (hlimit : opts.withDefaults.maxMessages = limit)
    (hr : Reopened dir opts d r d') : ∃ fs recs, r = .ok fs ∧ Opened limit fs d' recs m ∧ LogOnly d d' := by
  induction hr with
  | opens hexec =>
    obtain ⟨fs, recs, rfl, hopened⟩ := (h.open hlimit).1 _ _ hexec
    exact ⟨fs, recs, rfl, hopened, (open_logOnly h.pending dir opts).1 _ _ hexec⟩
  | killed hexec _ ih =>
    obtain ⟨fs, recs, rfl, hopened, hlog⟩ := ih ((h.open hlimit).2 _ hexec)
    exact ⟨fs, recs, rfl, hopened, ((open_logOnly h.pending dir opts).2 _ hexec).trans hlog⟩

theorem Finished.logOnly (h : Finished limit epoch log nums d) (hd : LogOnly d d') (hdisk : OnDisk limit d' {}) :
    Finished limit epoch log nums d' :=
  ⟨hdisk, hd.recordedEpoch.trans h.recorded, (hd.others _ rfl (by simp) (by simp)).trans h.log,
    (hd.others _ rfl (by simp) (by simp)).trans h.nums, hd.epochFiles h.files⟩

theorem Finished.reopened (h : Finished limit epoch log nums d) (hlimit : opts.withDefaults.maxMessages = limit)
    (hr : Reopened dir opts d r d') : ∃ fs recs, r = .ok fs ∧ Opened limit fs d' recs {} ∧
    Finished limit epoch log nums d' := by
  obtain ⟨fs, recs, rfl, hopened, hlog⟩ := h.onDisk.reopened hlimit hr
  exact ⟨fs, recs, rfl, hopened, h.logOnly hlog hopened.onDisk⟩

theorem Pending.open (h : Pending epoch log nums d) (hlimit : opts.withDefaults.maxMessages = limit) :
    Meets False (openFileStore dir opts).run
      (fun r d' => ∃ fs, r = .ok fs ∧ Opened limit fs d' [] {} ∧ Finished limit epoch log nums d')
      (fun d' => Pending epoch log nums d' ∨ Finished limit epoch log nums d') d := by
  refine (open_resumes h.note (parseInt_itoa h.isInt) dir opts).mono (fun r d' hr => ?_) fun d' hd' => ?_
  · obtain ⟨rfl, hrestarted⟩ := hr
    obtain ⟨fs, hfs⟩ : ∃ fs : FileStore, fs = { dir, opts := opts.withDefaults } := ⟨_, rfl⟩
    have hopened : Opened limit { fs with index := ∅, nextIn := 1, nextOut := 1 } d' [] {} :=
      .new hrestarted.log hrestarted.numbers hrestarted.note (hfs ▸ rfl) (hfs ▸ rfl) (hfs ▸ hlimit)
    rw [hfs] at hopened
    exact ⟨_, rfl, hopened, h.restarted hrestarted⟩
  · exact hd'.imp h.resetting h.restarted

theorem Pending.reopened (h : Pending epoch log nums d) (hlimit : opts.withDefaults.maxMessages = limit)
    (hr : Reopened dir opts d r d') : ∃ fs recs, r = .ok fs ∧ Opened limit fs d' recs {} ∧
    Finished limit epoch log nums d' := by
  induction hr with
  | opens hexec =>
    obtain ⟨fs, rfl, hopened, hfinished⟩ := (h.open hlimit).1 _ _ hexec
    exact ⟨fs, [], rfl, hopened, hfinished⟩
  | killed hexec hrest ih =>
    rcases (h.open hlimit).2 _ hexec with hpending | hfinished
    · exact ih hpending
    · exact hfinished.reopened hlimit hrest

/-- The runs of a store from an empty directory, with resets by schedule and kills at every point. -/
inductive EpochRun (dir : String) (opts : FileStoreOptions) : Option FileStore → Files Path → Prop
  | empty : EpochRun dir opts none fun _ => none
  | opens {d d' : Files Path} {r : Except String FileStore} : EpochRun dir opts none d →
    Exec False (openFileStore dir opts).run d d' (some r) → EpochRun dir opts r.toOption d'
  | opensKilled {d d' : Files Path} : EpochRun dir opts none d → Exec False (openFileStore dir opts).run d d' none →
    EpochRun dir opts none d'
  /-- Between two operations the process is killed, or the store is closed. -/
  | stops {d : Files Path} {fs : FileStore} : EpochRun dir opts (some fs) d → EpochRun dir opts none d
  | performs {d d' : Files Path} {fs fs' : FileStore} {op : StoreOp} {reply : Reply} : EpochRun dir opts (some fs) d →
    op.Proper fs → Exec False (fs.perform op) d d' (some (reply, fs')) → EpochRun dir opts (some fs') d'
  | performsKilled {d d' : Files Path} {fs : FileStore} {op : StoreOp} : EpochRun dir opts (some fs) d → op.Proper fs →
    Exec False (fs.perform op) d d' none → EpochRun dir opts none d'
  | resets {d d' : Files Path} {fs fs' : FileStore} : EpochRun dir opts (some fs) d →
    Exec False fs.reset d d' (some fs') → EpochRun dir opts (some fs') d'
  | resetsKilled {d d' : Files Path} {fs : FileStore} : EpochRun dir opts (some fs) d → Exec False fs.reset d d' none →
    EpochRun dir opts none d'
  | advances {d d' : Files Path} {fs fs' : FileStore} {err : Option String} {epoch : Int} :
    EpochRun dir opts (some fs) d →
    IsInt epoch → Exec False (fs.advanceEpoch epoch) d d' (some (err, fs')) → EpochRun dir opts (some fs') d'
  | advancesKilled {d d' : Files Path} {fs : FileStore} {epoch : Int} : EpochRun dir opts (some fs) d → IsInt epoch →
    Exec False (fs.advanceEpoch epoch) d d' none → EpochRun dir opts none d'

/-- What holds in every run: a store that is not open is as an operation left it, or a reset has to be finished. -/
def EpochInv (limit : Int) (d : Files Path) : Option FileStore → Prop
  | some fs => EpochFiles d ∧ ∃ m recs, Opened limit fs d recs m
  | none => EpochFiles d ∧ (∃ m, OnDisk limit d m) ∨ ∃ epoch log nums, Pending epoch log nums d

theorem Finished.inv (h : Finished limit epoch log nums d) : EpochInv limit d none := .inl ⟨h.files, {}, h.onDisk⟩

theorem Opened.emptied (h : Opened limit fs d recs m) (hd : SameFiles (update d .outboundLog (some [])) d') :
    ∃ m', OnDisk limit d' m' := by
  obtain ⟨out, hnums, _⟩ := h.shows.numbers
  have hint := h.shows.isInt.2
  refine ⟨{ nextIn := m.nextIn, nextOut := max out 1 }, [], [], ?_, .inl rfl, nofun,
    fun _ _ => ?_, ⟨out, ?_, rfl⟩, ?_, ?_, h.shows.isInt.1, ?_⟩
  · rw [hd _ rfl, update_self]
    rfl
  · simp [frameOf?, MemoryStore.get]
  · rw [hd _ rfl, update_of_ne (by simp), hnums]
  · rw [hd _ rfl, update_of_ne (by simp), h.shows.pending]
  · exact le_max_right ..
  unfold IsInt at hint ⊢
  simp only
  omega

theorem Opened.archiving (h : Opened limit fs d recs m) (hd : Archiving epoch d d') : OnDisk limit d' m := by
  refine ⟨recs, [], ?_, .inl rfl, { h.shows with numbers := ?_, pending := ?_ }⟩
  · rw [hd .outboundLog rfl (by simp), h.indexed.log, List.append_nil]
    rfl
  · rw [hd .seqNums rfl (by simp)]
    exact h.shows.numbers
  · rw [hd .resetPending rfl (by simp), h.shows.pending]

theorem EpochRun.inv {st} (h : EpochRun dir opts st d) : EpochInv opts.withDefaults.maxMessages d st := by
  induction h with
  | empty => exact .inl ⟨⟨.inl rfl, fun _ _ => rfl⟩, {}, NewFiles.empty.onDisk⟩
  | opens _ hexec ih =>
    rcases ih with ⟨hfiles, m, hdisk⟩ | ⟨_, _, _, hpending⟩
    · obtain ⟨_, recs, rfl, hopened⟩ := (hdisk.open rfl).1 _ _ hexec
      exact ⟨((open_logOnly hdisk.pending dir opts).1 _ _ hexec).epochFiles hfiles, m, recs, hopened⟩
    · obtain ⟨_, rfl, hopened, hfinished⟩ := (hpending.open rfl).1 _ _ hexec
      exact ⟨hfinished.files, {}, [], hopened⟩
  | opensKilled _ hexec ih =>
    rcases ih with ⟨hfiles, m, hdisk⟩ | ⟨_, _, _, hpending⟩
    · exact .inl ⟨((open_logOnly hdisk.pending dir opts).2 _ hexec).epochFiles hfiles, m, (hdisk.open rfl).2 _ hexec⟩
    rcases (hpending.open rfl).2 _ hexec with hpending | hfinished
    · exact .inr ⟨_, _, _, hpending⟩
    · exact hfinished.inv
  | stops _ ih =>
    obtain ⟨hfiles, m, _, hopened⟩ := ih
    exact .inl ⟨hfiles, m, hopened.onDisk⟩
  | performs _ hop hexec ih =>
    obtain ⟨hfiles, _, _, hopened⟩ := ih
    exact ⟨((hopened.perform_logOnly hop).1 _ _ hexec).epochFiles hfiles, _, ((hopened.perform hop).1 _ _ hexec).2⟩
  | performsKilled _ hop hexec ih =>
    obtain ⟨hfiles, _, _, hopened⟩ := ih
    exact .inl ⟨((hopened.perform_logOnly hop).2 _ hexec).epochFiles hfiles, ((hopened.perform hop).2 _ hexec).elim
      (⟨_, ·⟩) (⟨_, ·⟩)⟩
  | resets _ hexec ih =>
    obtain ⟨hfiles, _, _, hopened⟩ := ih
    obtain ⟨rfl, hd'⟩ := (reset_meets hopened.closed hopened.log_ne_none).1 _ _ hexec
    exact ⟨((LogOnly.of_log (.refl _)).of_numbers hd').epochFiles hfiles, {}, [],
      .of_reset hd' hopened.shows.pending hopened.closed hopened.failed hopened.limit⟩
  | resetsKilled _ hexec ih =>
    obtain ⟨hfiles, m, _, hopened⟩ := ih
    rcases (reset_meets hopened.closed hopened.log_ne_none).2 _ hexec with hd' | hd' | hd'
    · exact .inl ⟨hfiles.sameFiles hd', m, hopened.onDisk.sameFiles hd'⟩
    · exact .inl ⟨(LogOnly.of_log hd').epochFiles hfiles, hopened.emptied hd'⟩
    · exact .inl ⟨((LogOnly.of_log (.refl _)).of_numbers hd').epochFiles hfiles, {},
        (Opened.of_reset hd' hopened.shows.pending hopened.closed hopened.failed hopened.limit).onDisk⟩
  | advances _ hint hexec ih =>
    obtain ⟨hfiles, m, recs, hopened⟩ := ih
    rcases (advanceEpoch_meets hopened hfiles hint).1 _ _ hexec with ⟨-, hr, rfl⟩ | ⟨-, -, hopened', hfinished⟩
    · cases hr
      exact ⟨hfiles, m, recs, hopened⟩
    · exact ⟨hfinished.files, {}, [], hopened'⟩
  | advancesKilled _ hint hexec ih =>
    obtain ⟨hfiles, m, _, hopened⟩ := ih
    rcases (advanceEpoch_meets hopened hfiles hint).2 _ hexec with rfl |
      ⟨-, ⟨harchiving, hfiles'⟩ | hpending | hfinished⟩
    · exact .inl ⟨hfiles, m, hopened.onDisk⟩
    · exact .inl ⟨hfiles', m, hopened.archiving harchiving⟩
    · exact .inr ⟨_, _, _, hpending⟩
    · exact hfinished.inv

/-- The store is new, and the archive has the files as they were. -/
structure ResetTo (epoch : Int) (d : Files Path) (fs' : FileStore) (d' : Files Path) : Prop where
  above : recordedEpoch d < epoch
  view : fs'.view d' = .new epoch
  log : d' (.archive epoch .outboundLog) = d .outboundLog
  nums : d' (.archive epoch .seqNums) = d .seqNums

theorem Finished.resetTo (h : Finished limit epoch (d .outboundLog) (d .seqNums) d')
    (hopened : Opened limit fs d' recs {}) (habove : recordedEpoch d < epoch) : ResetTo epoch d fs d' := by
  refine ⟨habove, ?_, h.log, h.nums⟩
  have hget : ∀ seq, ({} : MemoryStore).get seq = none := fun seq => by simp [MemoryStore.get]
  rw [hopened.view, h.recorded]
  simp only [hget, ite_self]
  rfl

/-- The store is opened on files that show what it did before. -/
theorem Opened.view_eq (h : Opened limit fs d recs m) {fs' recs'} (h' : Opened limit fs' d' recs' m)
    (hepoch : recordedEpoch d' = recordedEpoch d) : fs'.view d' = fs.view d := by
  rw [h.view, h'.view, hepoch]

theorem Archiving.recordedEpoch (h : Archiving epoch d d') : Fix.recordedEpoch d' = Fix.recordedEpoch d := by
  rw [Fix.recordedEpoch, h .epoch rfl (by simp)]
  rfl

/-- A scheduled reset, wherever it and the openings after it are killed, leaves what was there or a new store with the
old files in the archive; uninterrupted it gives the new store, and to an older epoch it changes nothing. -/
theorem advanceEpoch_crash_atomic (hrun : EpochRun dir opts (some fs) d) (hint : IsInt epoch) :
    (∀ d₁ d₂ r, Exec False (fs.advanceEpoch epoch) d d₁ none → Reopened dir opts d₁ r d₂ →
      ∃ fs₂, r = .ok fs₂ ∧ (fs₂.view d₂ = fs.view d ∨ ResetTo epoch d fs₂ d₂)) ∧
    (∀ d₁ r, Exec False (fs.advanceEpoch epoch) d d₁ (some r) → recordedEpoch d < epoch → r.1 = none ∧
      ResetTo epoch d r.2 d₁) ∧
    (epoch ≤ recordedEpoch d → ∀ d₁ r, Exec False (fs.advanceEpoch epoch) d d₁ r → d₁ = d ∧ ∀ s, r = some s →
      s = (none, fs)) := by
  obtain ⟨hfiles, _, _, hopened⟩ := hrun.inv
  have hmeets := advanceEpoch_meets hopened hfiles hint
  refine ⟨fun d₁ d₂ r hkill hreopened => ?_, fun d₁ r hexec habove => ?_, fun hle d₁ r hexec => ?_⟩
  · rcases hmeets.2 _ hkill with rfl | ⟨habove, ⟨harchiving, -⟩ | hpending | hfinished⟩
    · obtain ⟨fs₂, _, rfl, hopened₂, hlog⟩ := hopened.onDisk.reopened rfl hreopened
      exact ⟨fs₂, rfl, .inl (hopened.view_eq hopened₂ hlog.recordedEpoch)⟩
    · obtain ⟨fs₂, _, rfl, hopened₂, hlog⟩ := (hopened.archiving harchiving).reopened rfl hreopened
      exact ⟨fs₂, rfl, .inl (hopened.view_eq hopened₂ (hlog.recordedEpoch.trans harchiving.recordedEpoch))⟩
    · obtain ⟨fs₂, _, rfl, hopened₂, hfinished⟩ := hpending.reopened rfl hreopened
      exact ⟨fs₂, rfl, .inr (hfinished.resetTo hopened₂ habove)⟩
    · obtain ⟨fs₂, _, rfl, hopened₂, hfinished⟩ := hfinished.reopened rfl hreopened
      exact ⟨fs₂, rfl, .inr (hfinished.resetTo hopened₂ habove)⟩
  · rcases hmeets.1 _ _ hexec with ⟨hle, -⟩ | ⟨-, herr, hopened', hfinished⟩
    · exact absurd habove (Int.not_lt.mpr hle)
    · exact ⟨herr, hfinished.resetTo hopened' habove⟩
  cases r with
  | none =>
    refine ⟨?_, nofun⟩
    rcases hmeets.2 _ hexec with rfl | ⟨habove, -⟩
    · rfl
    · exact absurd habove (Int.not_lt.mpr hle)
  | some =>
    rcases hmeets.1 _ _ hexec with ⟨-, rfl, rfl⟩ | ⟨habove, -⟩
    · exact ⟨rfl, fun s hs => (Option.some.inj hs).symm⟩
    · exact absurd habove (Int.not_lt.mpr hle)

private theorem exists_used_store : ∃ fs d, EpochRun "s" {} (some fs) d ∧ fs.seqNums = (1, 2) ∧
    ((openFileStore "s" {}).run.eval ((fs.advanceEpoch 3).kill 0 20 d)).1.toOption.any
    (fun fs' => fs'.seqNums = (1, 1)) = true := by
  have hempty : EpochRun "s" {} none fun _ => none := .empty
  have hopened := hempty.opens (exec_eval ..)
  obtain ⟨fs, hfs⟩ := Option.isSome_iff_exists.mp
    (show ((openFileStore "s" {}).run.eval fun _ => none).1.toOption.isSome = true by decide +kernel)
  rw [hfs] at hopened
  have hsave : (StoreOp.save 1 [7]).Proper fs := by
    have : (((openFileStore "s" {}).run.eval fun _ => none).1.toOption.all fun fs => (StoreOp.save 1 [7]).Proper fs) =
        true := by
      decide +kernel
    rw [hfs] at this
    exact of_decide_eq_true this
  refine ⟨_, _, hopened.performs hsave (exec_eval ..), ?_⟩
  have : (((openFileStore "s" {}).run.eval fun _ => none).1.toOption.all fun fs =>
      let r := (fs.perform (.save 1 [7])).eval ((openFileStore "s" {}).run.eval fun _ => none).2
      r.1.2.seqNums = (1, 2) ∧
        ((openFileStore "s" {}).run.eval ((r.1.2.advanceEpoch 3).kill 0 20 r.2)).1.toOption.any
        (fun fs' => fs'.seqNums = (1, 1))) = true := by
    decide +kernel
  rw [hfs] at this
  exact of_decide_eq_true this

/-- The process is killed when the note is written and the log is empty: the store that is opened then is new. -/
theorem advanceEpoch_crash_atomic_noted : ∃ fs d d₁ fs₂ d₂, EpochRun "s" {} (some fs) d ∧ IsInt 3 ∧
    fs.seqNums = (1, 2) ∧
    Exec False (fs.advanceEpoch 3) d d₁ none ∧ Reopened "s" {} d₁ (.ok fs₂) d₂ ∧ ResetTo 3 d fs₂ d₂ := by
  obtain ⟨fs, d, hrun, hnums, hseen⟩ := exists_used_store
  have hint : IsInt 3 := ⟨by decide, by decide⟩
  have hkill := exec_kill False 0 20 (fs.advanceEpoch 3) d
  have hopen := exec_eval False (openFileStore "s" {}).run ((fs.advanceEpoch 3).kill 0 20 d)
  obtain ⟨fs₂, hr, hview⟩ := (advanceEpoch_crash_atomic hrun hint).1 _ _ _ hkill (.opens hopen)
  rw [hr] at hseen hopen
  refine ⟨fs, d, _, fs₂, _, hrun, hint, hnums, hkill, .opens hopen, hview.resolve_left fun h => ?_⟩
  -- the numbers are not those before
  have hnums₂ : fs₂.seqNums = (1, 1) := of_decide_eq_true hseen
  have : (fs₂.seqNums : Int × Int) = fs.seqNums := congrArg View.numbers h
  rw [hnums, hnums₂] at this
  exact absurd this (by decide)

end Fxp.Fix
