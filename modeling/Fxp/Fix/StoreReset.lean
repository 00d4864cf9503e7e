import Fxp.Fix.StoreRefines

/-!
# Resets that are interrupted

What is seen of a store are its two numbers, the frames it gives out and the epoch. `Reset` empties the log and then
replaces the file with the numbers. A process that is killed between the two leaves the old numbers and no frames.
-/

namespace Fxp.Fix

open Durable Function

variable {limit : Int} {d d' : Files Path} {fs : FileStore} {recs : List (Int × Bytes)} {m : MemoryStore}

def recordedEpoch (d : Files Path) : Int :=
  match d .epoch with
  | none => 0
  | some raw => (atoi (trimSpace raw)).getD 0

/-- The two numbers, the stored frames and the recorded epoch. -/
structure View where
  numbers : Int × Int
  frames : Int → Option Bytes
  epoch : Int

def FileStore.view (fs : FileStore) (d : Files Path) : View :=
  { numbers := fs.seqNums
    frames := fun seq => ((fs.get seq).eval d).1
    epoch := recordedEpoch d }

/-- The store has just been reset. -/
def View.new (epoch : Int) : View := { numbers := (1, 1), frames := fun _ => none, epoch }

theorem Opened.view (h : Opened limit fs d recs m) : fs.view d =
    { numbers := m.seqNums
      frames := fun seq => if m.nextOut - limit ≤ seq then m.get seq else none
      epoch := recordedEpoch d } := by
  have hframes : ∀ seq, ((fs.get seq).eval d).1 = if m.nextOut - limit ≤ seq then m.get seq else none := by
    intro seq
    rw [((get_meets h.indexed h.closed seq).1 _ _ (exec_eval False _ d)).2, h.kept_frame]
  rw [FileStore.view, FileStore.seqNums, MemoryStore.seqNums, h.nextIn, h.nextOut]
  simp only [hframes]

def readIndex (index : Index) (log : Bytes) (seq : Int) : Option Bytes :=
  match index[seq]? with
  | none => none
  | some loc =>
    let frame := (log.drop loc.off).take loc.n
    if frame.length < loc.n then none else some frame

/-- What is seen of a store that is opened on a log and numbers. -/
def View.recovered (limit : Int) (log : Bytes) (nextIn nextOut epoch : Int) : View :=
  let nextOut := max nextOut ((scanLog log).maxSeq + 1)
  { numbers := (nextIn, nextOut)
    frames := fun seq => if seq < nextOut - limit then none else readIndex (scanLog log).index (cutLog log) seq
    epoch }

theorem View.recovered_nil (limit nextIn nextOut epoch : Int) : View.recovered limit [] nextIn nextOut epoch =
    { numbers := (nextIn, max nextOut 1), frames := fun _ => none, epoch } := by
  have hscan : scanLog [] = {} := rfl
  simp only [View.recovered, hscan, readIndex, Std.ExtTreeMap.getElem?_empty, ite_self]
  rfl

private theorem eval_get (hclosed : fs.closed = false) {log : Bytes} (hlog : d .outboundLog = some log) (seq : Int) :
    ((fs.get seq).eval d).1 =
      if seq < fs.nextOut - fs.opts.maxMessages then none else readIndex fs.index log seq := by
  rw [FileStore.get, hclosed, Bool.false_or]
  by_cases hseq : seq < fs.nextOut - fs.opts.maxMessages
  · rw [if_pos hseq, if_pos (decide_eq_true hseq)]
    rfl
  rw [if_neg hseq, if_neg (by simpa using hseq), FileStore.readLocked, readIndex]
  rcases fs.index[seq]? with _ | loc
  · rfl
  show (let frame := (((d .outboundLog).getD []).drop loc.off).take loc.n;
    if frame.length < loc.n then none else some frame) = _
  rw [hlog]
  rfl

private theorem open_view {dir opts d₁ r}
    (hpending : d .resetPending = none) (h : Exec False (openFileStore dir opts).run d d₁ (some r)) :
    (r.map fun fs => fs.view d₁) = match storedNums (d .seqNums) with
      | none => .error "corrupt seqnums"
      | some (nextIn, nextOut) =>
        .ok (.recovered opts.withDefaults.maxMessages ((d .outboundLog).getD []) nextIn nextOut (recordedEpoch d)) := by
  obtain ⟨rfl, rfl⟩ := (open_scan rfl hpending dir opts).1 _ _ h
  rcases storedNums (d .seqNums) with _ | nums
  · rfl
  obtain ⟨_, _⟩ := nums
  have hepoch : recordedEpoch (update d .outboundLog (some (cutLog ((d .outboundLog).getD [])))) = recordedEpoch d := by
    rw [recordedEpoch, update_of_ne (by simp)]
    rfl
  simp only [FileStore.loaded, Except.map, FileStore.view, View.recovered, hepoch, Except.ok.injEq,
    View.mk.injEq, and_true]
  exact ⟨rfl, funext fun seq => eval_get rfl (update_self ..) seq⟩

/-- The files while a scheduled reset is under way; of the log nothing is said. -/
structure Resetting (epoch : Int) (d d' : Files Path) : Prop where
  numbers : d' .seqNums = d .seqNums ∨ d' .seqNums = some (seqNumsText 1 1)
  epoch : d' .epoch = d .epoch ∨ d' .epoch = some (itoa epoch)
  others : ∀ p, p.isTmp = false → p ≠ .outboundLog → p ≠ .seqNums → p ≠ .epoch → d' p = d p

/-- The files behind a scheduled reset. -/
structure Restarted (epoch : Int) (d d' : Files Path) : Prop where
  log : d' .outboundLog = some []
  numbers : d' .seqNums = some (seqNumsText 1 1)
  epoch : d' .epoch = some (itoa epoch)
  note : d' .resetPending = none
  others : ∀ p, p.isTmp = false → p ≠ .outboundLog → p ≠ .seqNums → p ≠ .epoch → p ≠ .resetPending → d' p = d p

variable {epoch : Int} {d₁ d₂ : Files Path}

namespace Resetting

private theorem of_log (b : Option Bytes) : Resetting epoch d (update d .outboundLog b) :=
  ⟨.inl (update_of_ne (by simp) ..), .inl (update_of_ne (by simp) ..), fun _ _ hlog _ _ => update_of_ne hlog ..⟩

private theorem trans (h : Resetting epoch d d₁) (h' : Resetting epoch d₁ d₂) : Resetting epoch d d₂ := by
  refine ⟨?_, ?_, fun p hp hlog hnums hepoch => ?_⟩
  · rcases h'.numbers with h' | h'
    · rw [h']
      exact h.numbers
    · exact .inr h'
  · rcases h'.epoch with h' | h'
    · rw [h']
      exact h.epoch
    · exact .inr h'
  · rw [h'.others p hp hlog hnums hepoch, h.others p hp hlog hnums hepoch]

private theorem of_same (h : SameFiles d d₁) : Resetting epoch d d₁ :=
  ⟨.inl (h _ rfl), .inl (h _ rfl), fun p hp _ _ _ => h p hp⟩

private theorem of_numbers (h : Replaced .seqNums (seqNumsText 1 1) d d₁) : Resetting epoch d d₁ := by
  refine ⟨.inr ?_, .inl ?_, fun p hp _ hnums _ => ?_⟩
  · rw [h _ rfl, update_self]
  · rw [h _ rfl, update_of_ne (by simp)]
  · rw [h p hp, update_of_ne hnums]

private theorem of_epoch (h : Replaced .epoch (itoa epoch) d d₁) : Resetting epoch d d₁ := by
  refine ⟨.inl ?_, .inr ?_, fun p hp _ _ hepoch => ?_⟩
  · rw [h _ rfl, update_of_ne (by simp)]
  · rw [h _ rfl, update_self]
  · rw [h p hp, update_of_ne hepoch]

private theorem restarted (h : Resetting epoch d d₁) (hlog : d₁ .outboundLog = some [])
    (hnums : d₁ .seqNums = some (seqNumsText 1 1))
    (hepoch : d₁ .epoch = some (itoa epoch)) : Restarted epoch d (update d₁ .resetPending none) := by
  refine ⟨?_, ?_, ?_, update_self .., fun p hp hlog hnums hepoch hnote => ?_⟩
  · rw [update_of_ne (by simp), hlog]
  · rw [update_of_ne (by simp), hnums]
  · rw [update_of_ne (by simp), hepoch]
  · rw [update_of_ne hnote, h.others p hp hlog hnums hepoch]

end Resetting

theorem Restarted.of_resetting (h : Resetting epoch d d₁) (h' : Restarted epoch d₁ d₂) : Restarted epoch d d₂ :=
  ⟨h'.log, h'.numbers, h'.epoch, h'.note, fun p hp hlog hnums hepoch hnote =>
    (h'.others p hp hlog hnums hepoch hnote).trans (h.others p hp hlog hnums hepoch)⟩

theorem finishEpochReset_meets (hlog : d .outboundLog ≠ none) (epoch : Int) (fs : FileStore) :
    Meets False (fs.finishEpochReset epoch)
      (fun r d' => r = (none, { fs with index := ∅, nextIn := 1, nextOut := 1 }) ∧ Restarted epoch d d')
      (fun d' => Resetting epoch d d' ∨ Restarted epoch d d') d := by
  obtain ⟨d₁, hd₁⟩ : ∃ d₁, d₁ = update d .outboundLog (some []) := ⟨_, rfl⟩
  have h₁ : Resetting epoch d d₁ := hd₁ ▸ .of_log _
  have hempty : d₁ .outboundLog = some [] := hd₁ ▸ update_self ..
  refine .bind (.attempt rfl (.inl (.of_same (.refl d))) ?_)
  rw [truncate_log hlog, ← hd₁]
  refine .attempt rfl (.inl h₁) (.ret (.inl h₁) (.bind ?_))
  -- the numbers
  refine .andThen ((durableFile_meets .seqNums (seqNumsText 1 1) _).mono (fun r d₂ hr => ?_) fun d₂ hd₂ => ?_)
  rotate_left
  · exact .inl (hd₂.elim (fun hd₂ => h₁.trans (.of_same hd₂)) fun hd₂ => h₁.trans (.of_numbers hd₂))
  obtain ⟨rfl, hd₂⟩ := hr
  have h₂ : Resetting epoch d d₂ := h₁.trans (.of_numbers hd₂)
  have hempty₂ : d₂ .outboundLog = some [] := by rw [hd₂ _ rfl, update_of_ne (by simp)]; exact hempty
  have hnums₂ : d₂ .seqNums = some (seqNumsText 1 1) := by rw [hd₂ _ rfl, update_self]
  -- the epoch
  refine .andThen ((durableFile_meets .epoch (itoa epoch) _).mono (fun r d₃ hr => ?_) fun d₃ hd₃ => ?_)
  rotate_left
  · exact .inl (hd₃.elim (fun hd₃ => h₂.trans (.of_same hd₃)) fun hd₃ => h₂.trans (.of_epoch hd₃))
  obtain ⟨rfl, hd₃⟩ := hr
  have h₃ : Resetting epoch d d₃ := h₂.trans (.of_epoch hd₃)
  -- the note goes
  have hrestarted : Restarted epoch d (update d₃ .resetPending none) := by
    refine h₃.restarted ?_ ?_ ?_
    · rw [hd₃ _ rfl, update_of_ne (by simp), hempty₂]
    · rw [hd₃ _ rfl, update_of_ne (by simp), hnums₂]
    · rw [hd₃ _ rfl, update_self]
  exact .attempt rfl (.inl h₃) (.ret (.inr hrestarted) (.ret (.inr hrestarted) ⟨rfl, hrestarted⟩))

theorem open_resumes {raw : Bytes} (hnote : d .resetPending = some raw) (hparse : FileStore.parseInt raw = .ok epoch)
    (dir : String) (opts : FileStoreOptions) :
    Meets False (openFileStore dir opts).run
      (fun r d' => r = .ok { dir, opts := opts.withDefaults } ∧ Restarted epoch d d')
      (fun d' => Resetting epoch d d' ∨ Restarted epoch d d') d := by
  obtain ⟨d₁, hd₁⟩ : ∃ d₁, d₁ = update d .outboundLog (some ((d .outboundLog).getD [])) := ⟨_, rfl⟩
  have hrefl : Resetting epoch d d := .of_same (.refl d)
  have h₁ : Resetting epoch d d₁ := hd₁ ▸ .of_log _
  refine .attempt rfl (.inl hrefl) ?_
  refine .attempt rfl (.inl hrefl) ?_
  show Meets False _ _ _ (update d .outboundLog (some ((d .outboundLog).getD [])))
  rw [← hd₁]
  have hnote₁ : d₁ .resetPending = some raw := by rw [hd₁, update_of_ne (by simp), hnote]
  have hlog₁ : d₁ .outboundLog ≠ none := by rw [hd₁, update_self]; simp
  refine .andThen (.attempt rfl (.inl h₁) ?_)
  simp only [Op.reply, hnote₁, hparse]
  rw [Op.apply_read]
  refine .bind
    (.ret (.inl h₁)
      (.andThen (.bind ((finishEpochReset_meets hlog₁ epoch _).mono (fun r d₂ hr => ?_) fun d₂ hd₂ => ?_))))
  · obtain ⟨rfl, h₂⟩ := hr
    have hdone : Restarted epoch d d₂ := .of_resetting h₁ h₂
    -- there is nothing to recover
    have hcut : update d₂ .outboundLog (some (cutLog [])) = d₂ := by
      have : cutLog [] = [] := rfl
      rw [this, ← h₂.log, update_eq_self]
    refine .ret (.inr hdone) (.ret (.inr hdone) ((load_meets rfl rfl h₂.log).mono (fun r d' hr => ?_) fun d' hd' => ?_))
    · rw [hcut, h₂.numbers] at hr
      exact ⟨hr.1, hr.2 ▸ hdone⟩
    · rw [hcut, or_self] at hd'
      exact .inr (hd' ▸ hdone)
  · exact hd₂.imp h₁.trans fun hd₂ => .of_resetting h₁ hd₂

private theorem isInt_of_parseInt {raw} (h : FileStore.parseInt raw = .ok epoch) : IsInt epoch := by
  unfold FileStore.parseInt at h
  split at h
  · rename_i n hatoi
    cases h
    obtain ⟨⟨_, _⟩, hsign⟩ : ∃ parts, sign (trimSpace raw) = parts := ⟨_, rfl⟩
    simp only [atoi, hsign, Option.ite_none_right_eq_some, Option.some.injEq] at hatoi
    exact hatoi.2 ▸ hatoi.1.2
  · cases h

theorem recordedEpoch_itoa (hint : IsInt epoch) (h : d .epoch = some (itoa epoch)) : recordedEpoch d = epoch := by
  have hparse := parseInt_itoa hint
  unfold FileStore.parseInt at hparse
  rw [recordedEpoch, h]
  rcases hatoi : atoi (trimSpace (itoa epoch)) with _ | _
  · rw [hatoi] at hparse
    cases hparse
  rw [hatoi] at hparse
  cases hparse
  simp only [hatoi, Option.getD_some]

theorem Restarted.view (h : Restarted epoch d d') (hint : IsInt epoch) (dir : String) (opts : FileStoreOptions) :
    ({ dir, opts } : FileStore).view d' = .new epoch := by
  rw [FileStore.view, recordedEpoch_itoa hint h.epoch, View.new, View.mk.injEq]
  refine ⟨rfl, funext fun _ => ?_, rfl⟩
  rw [eval_get rfl h.log]
  exact ite_self _

/-- The store is closed, or a scheduled reset is pending; or it gives out no frame and the number in the file is not
behind the log; or the numbers are those of a new store. -/
def ResetSafe (fs : FileStore) (d : Files Path) (before : View) : Prop :=
  fs.closed = true ∨ d .resetPending ≠ none ∨ ∃ nextIn nextOut, storedNums (d .seqNums) = some (nextIn, nextOut) ∧
    (before.frames = (fun _ => none) ∧ before.numbers.2 = max nextOut 1 ∨ nextIn = 1 ∧ nextOut ≤ 1)

private theorem reset_killed_note (hclosed : fs.closed = false) (hlog : d .outboundLog ≠ none)
    (h : Exec False fs.reset d d' none) :
    d' .resetPending = d .resetPending ∧ recordedEpoch d' = recordedEpoch d := by
  have hsame : ∀ p, p.isTmp = false → p ≠ .outboundLog → p ≠ .seqNums → d' p = d p := by
    intro p hp hlog' hnums
    rcases (reset_meets hclosed hlog).2 _ h with hd' | hd' | hd'
    · exact hd' p hp
    · rw [hd' p hp, update_of_ne hlog']
    · rw [hd' p hp, withFiles, update_of_ne hnums, update_of_ne hlog']
  refine ⟨hsame _ rfl (by simp) (by simp), ?_⟩
  rw [recordedEpoch, hsame .epoch rfl (by simp) (by simp)]
  rfl

private theorem open_unreadable {raw : Bytes} {e : String} (hnote : d .resetPending = some raw)
    (hparse : FileStore.parseInt raw = .error e) (dir : String) (opts : FileStoreOptions) :
    Meets False (openFileStore dir opts).run (fun r _ => r = .error e) (fun _ => True) d := by
  refine .attempt rfl trivial ?_
  refine .attempt rfl trivial ?_
  refine .andThen (.attempt rfl trivial ?_)
  have hnote₁ : (Op.touch .outboundLog).apply d .resetPending = some raw := by
    rw [Op.apply, update_of_ne (by simp), hnote]
  simp only [Op.reply, Op.apply_sync, hnote₁, hparse]
  exact .ret trivial ⟨trivial, rfl⟩

private theorem exists_storedNums {dir opts} (hpending : d .resetPending = none)
    (h : Exec False (openFileStore dir opts).run d d₁ (some (.ok fs))) :
    ∃ nextIn nextOut, storedNums (d .seqNums) = some (nextIn, nextOut) := by
  have hview := open_view hpending h
  cases hnums : storedNums (d .seqNums) with
  | some nums => exact ⟨nums.1, nums.2, rfl⟩
  | none =>
    rw [hnums] at hview
    cases hview

private theorem open_recovered {dir opts r} {nextIn nextOut : Int}
    (hpending : d .resetPending = none) (hnums : storedNums (d .seqNums) = some (nextIn, nextOut))
    (h : Exec False (openFileStore dir opts).run d d₁ (some r)) : ∃ fs, r = .ok fs ∧ fs.view d₁ =
      .recovered opts.withDefaults.maxMessages ((d .outboundLog).getD []) nextIn nextOut (recordedEpoch d) := by
  have hview := open_view hpending h
  rw [hnums] at hview
  cases r with
  | error => cases hview
  | ok fs => exact ⟨fs, rfl, Except.ok.inj hview⟩

private theorem reset_interrupted_iff {dir opts fs₀ d₀} (hclosed : fs.closed = false)
    (hlog : d .outboundLog ≠ none) (hnote : d .resetPending = none)
    (hbefore : Exec False (openFileStore dir opts).run d d₀ (some (.ok fs₀))) :
    (∀ d' d₁ r, Exec False fs.reset d d' none → Exec False (openFileStore dir opts).run d' d₁ (some r) →
      ∃ fs₁, r = .ok fs₁ ∧ (fs₁.view d₁ = fs₀.view d₀ ∨ fs₁.view d₁ = .new (recordedEpoch d))) ↔
    ResetSafe fs d (fs₀.view d₀) := by
  obtain ⟨nextIn, nextOut, hnums⟩ := exists_storedNums hnote hbefore
  obtain ⟨_, hfs₀, hview⟩ := open_recovered hnote hnums hbefore
  cases hfs₀
  have hin : (fs₀.view d₀).numbers.1 = nextIn := by rw [hview]; rfl
  have hepoch : (fs₀.view d₀).epoch = recordedEpoch d := by rw [hview]; rfl
  constructor
  · intro hatomic
    -- the process is killed when the log has been emptied
    have hkill : Exec False fs.reset d (update d .outboundLog (some [])) none := by
      rw [FileStore.reset, if_neg (by simp [hclosed]), ← truncate_log hlog]
      exact .ok .killed
    have hopen := exec_eval False (openFileStore dir opts).run (update d .outboundLog (some []))
    have hnote' : update d .outboundLog (some []) .resetPending = none := by rw [update_of_ne (by simp), hnote]
    have hnums' : storedNums (update d .outboundLog (some []) .seqNums) = some (nextIn, nextOut) := by
      rw [update_of_ne (by simp), hnums]
    obtain ⟨_, hr, hview₁⟩ := open_recovered hnote' hnums' hopen
    obtain ⟨_, hr', hseen⟩ := hatomic _ _ _ hkill hopen
    cases hr.symm.trans hr'
    rw [hview₁, update_self, Option.getD_some, View.recovered_nil] at hseen
    refine .inr (.inr ⟨nextIn, nextOut, hnums, ?_⟩)
    rcases hseen with hseen | hseen
    · left
      rw [← hseen]
      exact ⟨rfl, rfl⟩
    · right
      rw [View.new, View.mk.injEq, Prod.mk.injEq] at hseen
      exact ⟨hseen.1.1, max_eq_right_iff.mp hseen.1.2⟩
  · rintro (h | h | ⟨_, _, hnums', hsafe⟩) d' _ _ hkill hopen
    · rw [hclosed] at h
      cases h
    · exact absurd hnote h
    cases hnums.symm.trans hnums'
    obtain ⟨hnote', hepoch'⟩ := reset_killed_note hclosed hlog hkill
    rw [hnote] at hnote'
    rcases (reset_meets hclosed hlog).2 _ hkill with hd' | hd' | hd'
    · obtain ⟨fs₁, hr, hview₁⟩ := open_recovered hnote' (hd' .seqNums rfl ▸ hnums) hopen
      refine ⟨fs₁, hr, .inl ?_⟩
      rw [hview₁, hview, hd' .outboundLog rfl, hepoch']
    · have hnums₁ : storedNums (d' .seqNums) = some (nextIn, nextOut) := by
        rw [hd' .seqNums rfl, update_of_ne (by simp), hnums]
      obtain ⟨fs₁, hr, hview₁⟩ := open_recovered hnote' hnums₁ hopen
      refine ⟨fs₁, hr, ?_⟩
      rw [hview₁, hd' .outboundLog rfl, update_self, Option.getD_some, View.recovered_nil, hepoch']
      rcases hsafe with ⟨hframes, hout⟩ | ⟨rfl, hout⟩
      · left
        rw [← hframes, ← hout, ← hin, ← hepoch]
      · right
        rw [max_eq_right hout, View.new]
    · have hnums₁ : storedNums (d' .seqNums) = some (1, 1) := by
        rw [hd' .seqNums rfl, withFiles, update_self]
        exact storedNums_text ⟨by decide, by decide⟩ ⟨by decide, by decide⟩
      have hlog₁ : d' .outboundLog = some [] := by
        rw [hd' .outboundLog rfl, withFiles, update_of_ne (by simp), update_self, encodeLog_nil]
      obtain ⟨fs₁, hr, hview₁⟩ := open_recovered hnote' hnums₁ hopen
      refine ⟨fs₁, hr, .inr ?_⟩
      rw [hview₁, hlog₁, Option.getD_some, View.recovered_nil, hepoch', View.new, max_self]

/-- A kill in `Reset` leaves the store before or after it exactly if the log may be emptied before the numbers are
written. -/
theorem reset_crash_atomic {dir : String} {opts : FileStoreOptions} {fs₀ : FileStore} {d₀ : Files Path}
    (hlog : d .outboundLog ≠ none) (hbefore : Exec False (openFileStore dir opts).run d d₀ (some (.ok fs₀))) :
    (∀ d' d₁ r, Exec False fs.reset d d' none → Exec False (openFileStore dir opts).run d' d₁ (some r) →
      ∃ fs₁, r = .ok fs₁ ∧ (fs₁.view d₁ = fs₀.view d₀ ∨ fs₁.view d₁ = .new (recordedEpoch d))) ↔
    ResetSafe fs d (fs₀.view d₀) := by
  cases hclosed : fs.closed with
  | true =>
    refine iff_of_true (fun d' d₁ r hkill hopen => ?_) (.inl hclosed)
    rw [FileStore.reset, if_pos hclosed] at hkill
    cases hkill
    cases (exec_unique hopen).symm.trans (exec_unique hbefore)
    exact ⟨fs₀, rfl, .inl rfl⟩
  | false =>
    cases hnote : d .resetPending with
    | some raw =>
      rcases hparse : FileStore.parseInt raw with _ | _
      · cases (open_unreadable hnote hparse dir opts).1 _ _ hbefore
      refine iff_of_true (fun d' d₁ r hkill hopen => ?_) (.inr (.inl (by simp [hnote])))
      have hint := isInt_of_parseInt hparse
      have hnote' : d' .resetPending = some raw := (reset_killed_note hclosed hlog hkill).1.trans hnote
      obtain ⟨hr, h₁⟩ := (open_resumes hnote' hparse dir opts).1 _ _ hopen
      obtain ⟨hr₀, h₀⟩ := (open_resumes hnote hparse dir opts).1 _ _ hbefore
      cases hr₀
      refine ⟨_, hr, .inl ?_⟩
      rw [h₁.view hint, h₀.view hint]
    | none =>
      exact reset_interrupted_iff hclosed hlog hnote hbefore

/-- A store that expects the number 5 and has sent nothing: after a kill in `Reset` it expects 5 or 1. -/
theorem reset_crash_atomic_received : ∃ evs fs d fs₀ d₀, StoreRun "s" {} evs (some fs) d ∧ fs.seqNums = (5, 1) ∧
    Exec False (openFileStore "s" {}).run d d₀ (some (.ok fs₀)) ∧ (fs₀.view d₀).numbers = (5, 1) ∧
    ∀ d' d₁ r, Exec False fs.reset d d' none → Exec False (openFileStore "s" {}).run d' d₁ (some r) →
      ∃ fs₁, r = .ok fs₁ ∧ (fs₁.view d₁ = fs₀.view d₀ ∨ fs₁.view d₁ = .new (recordedEpoch d)) := by
  have hnew : StoreRun "s" {} [] none fun _ => none := .new .empty
  obtain ⟨⟨evs, st, d⟩, hrun, hs⟩ := StoreRun.of_computed [.opens, .completes (.setNextInSeq 5)]
    (s := ([], none, fun _ => none)) hnew
    (P := fun s => s.2.1.any fun fs => fs.seqNums = (5, 1) ∧ s.2.2 .outboundLog = some [] ∧
      s.2.2 .resetPending = none ∧ storedNums (s.2.2 .seqNums) = some (5, 1)) (by decide +kernel)
  rcases st with _ | fs
  · cases hs
  obtain ⟨hseq, hlog, hnote, hnums⟩ := of_decide_eq_true hs
  dsimp only at hlog hnote hnums
  have hopen := exec_eval False (openFileStore "s" {}).run d
  obtain ⟨fs₀, hr, hview⟩ := open_recovered hnote hnums hopen
  rw [hr] at hopen
  rw [hlog, Option.getD_some, View.recovered_nil] at hview
  have hsafe : ResetSafe fs d (fs₀.view _) := .inr (.inr ⟨5, 1, hnums, .inl (by rw [hview]; exact ⟨rfl, rfl⟩)⟩)
  exact ⟨evs, fs, d, fs₀, _, hrun, hseq, hopen, by rw [hview, max_self],
    (reset_crash_atomic (by simp [hlog]) hopen).mpr hsafe⟩

/-- One frame was sent. The process is killed when the log is empty: the numbers are as before, and the frame is gone.
-/
theorem reset_killed_loses_frames : ∃ evs fs d d' fs₁ d₁, StoreRun "s" {} evs (some fs) d ∧
    fs.seqNums = (1, 2) ∧ ((fs.get 1).eval d).1 = some [7] ∧
    Exec False fs.reset d d' none ∧ Exec False (openFileStore "s" {}).run d' d₁ (some (.ok fs₁)) ∧
    fs₁.seqNums = (1, 2) ∧ ((fs₁.get 1).eval d₁).1 = none := by
  have hnew : StoreRun "s" {} [] none fun _ => none := .new .empty
  obtain ⟨⟨evs, st, d⟩, hrun, hs⟩ := StoreRun.of_computed [.opens, .completes (.save 1 [7])]
    (s := ([], none, fun _ => none)) hnew (P := fun s => s.2.1.any fun fs =>
      let r := (openFileStore "s" {}).run.eval (fs.reset.kill 0 1 s.2.2)
      fs.seqNums = (1, 2) ∧ ((fs.get 1).eval s.2.2).1 = some [7] ∧
        r.1.toOption.any fun fs₁ => fs₁.seqNums = (1, 2) ∧ ((fs₁.get 1).eval r.2).1 = none) (by decide +kernel)
  rcases st with _ | fs
  · cases hs
  obtain ⟨hnums, hframe, hseen⟩ := of_decide_eq_true hs
  have hopen := exec_eval False (openFileStore "s" {}).run (fs.reset.kill 0 1 d)
  rcases hr : ((openFileStore "s" {}).run.eval (fs.reset.kill 0 1 d)).1 with _ | fs₁
  · rw [hr] at hseen
    cases hseen
  rw [hr] at hseen hopen
  obtain ⟨hnums₁, hframe₁⟩ := of_decide_eq_true hseen
  exact ⟨evs, fs, d, _, fs₁, _, hrun, hnums, hframe, exec_kill .., hopen, hnums₁, hframe₁⟩

end Fxp.Fix
