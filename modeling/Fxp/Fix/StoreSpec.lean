import Fxp.Fix.StoreRecords

/-!
# What the operations of a file store do

For every operation: the files when it ends, and the files when the process is killed in it. Temporary files do not
matter: `SameFiles` is that the others are the same.
-/

namespace Fxp.Fix

open Durable List Function Option

variable {d d' d₁ : Files Path} {fs : FileStore} {recs : List (Int × Bytes)}

def Path.isTmp : Path → Bool
  | .tmp _ => true
  | _ => false

/-- The files are the same, up to temporary ones. -/
def SameFiles (d d' : Files Path) : Prop := ∀ p, p.isTmp = false → d' p = d p

namespace SameFiles

theorem refl (d : Files Path) : SameFiles d d := fun _ _ => rfl

private theorem trans {d d₁ d₂} (h : SameFiles d d₁) (h' : SameFiles d₁ d₂) : SameFiles d d₂ :=
  fun p hp => (h' p hp).trans (h p hp)

private theorem tmp (d : Files Path) (f : Path) (b : Option Bytes) : SameFiles d (update d (.tmp f) b) := by
  intro p hp
  rw [update_of_ne]
  rintro rfl
  cases hp

private theorem update {d d'} (h : SameFiles d d') (f : Path) (b : Option Bytes) :
    SameFiles (update d f b) (update d' f b) := by
  intro p hp
  by_cases hf : p = f
  · rw [hf, update_self, update_self]
  · rw [update_of_ne hf, update_of_ne hf]
    exact h p hp

end SameFiles

private theorem torn_append {f : Path} {data : Bytes} (h : (Op.append f data).Torn d d') :
    ∃ k, d' = update d f (some ((d f).getD [] ++ data.take k)) := by
  obtain ⟨_, _, k, heq, rfl⟩ := h
  cases heq
  exact ⟨k, rfl⟩

/-- The file at `path` is `data` now, and nothing else is different. -/
def Replaced (path : Path) (data : Bytes) (d d' : Files Path) : Prop := SameFiles (update d path (some data)) d'

theorem Replaced.rename {d d₁ : Files Path} {path : Path} {data : Bytes} (h : SameFiles d d₁)
    (hdata : d₁ (.tmp path) = some data) : Replaced path data d ((Op.rename (.tmp path) path).apply d₁) := by
  have hrename : (Op.rename (.tmp path) path).apply d₁ =
      update (update d₁ (.tmp path) none) path (some data) := by
    rw [Op.apply, hdata]
  rw [hrename]
  exact (h.trans (.tmp d₁ path none)).update _ _

private theorem writeTmp_meets (path : Path) (data : Bytes) (d : Files Path) :
    Meets False (writeTmp path data).run (fun r d' => r = .ok () ∧ SameFiles d d' ∧ d' (.tmp path) = some data)
    (SameFiles d) d := by
  have hcreate : SameFiles d ((Op.create (Path.tmp path)).apply d) := .tmp d path _
  have happend : SameFiles d ((Op.append (Path.tmp path) data).apply ((Op.create (Path.tmp path)).apply d)) :=
    hcreate.trans (.tmp _ path _)
  have hcontents : (Op.append (Path.tmp path) data).apply ((Op.create (Path.tmp path)).apply d) (.tmp path) =
      some data := by
    simp [Op.apply]
  refine .attempt rfl (.refl d)
    (.step hcreate (fun d' h => ?_) (.attempt rfl happend (.ret happend ⟨rfl, happend, hcontents⟩)))
  obtain ⟨_, rfl⟩ := torn_append h
  exact hcreate.trans (.tmp _ path _)

theorem durableFile_meets (path : Path) (data : Bytes) (d : Files Path) :
    Meets False (durableFile path data).run (fun r d' => r = .ok () ∧ Replaced path data d d')
      (fun d' => SameFiles d d' ∨ Replaced path data d d') d := by
  refine .andThen ((writeTmp_meets path data d).mono (fun r _ h => ?_) fun _ h => .inl h)
  obtain ⟨rfl, h₁, hdata⟩ := h
  have hrename := Replaced.rename h₁ hdata
  exact .attempt rfl (.inl h₁) (.attempt rfl (.inr hrename) (.ret (.inr hrename) ⟨rfl, hrename⟩))

theorem writeSeqNumsLocked_meets (fs : FileStore) (d : Files Path) :
    Meets False fs.writeSeqNumsLocked
      (fun err d' => err = none ∧ Replaced .seqNums (seqNumsText fs.nextIn fs.nextOut) d d')
      (fun d' => SameFiles d d' ∨ Replaced .seqNums (seqNumsText fs.nextIn fs.nextOut) d d') d := by
  refine .bind (.andThen ((writeTmp_meets .seqNums _ d).mono (fun _ _ h => ?_) fun _ h => .inl h))
  obtain ⟨rfl, h₁, hdata⟩ := h
  have hrename := Replaced.rename h₁ hdata
  exact .attempt rfl (.inl h₁) (.ret (.inr hrename) (.ret (.inr hrename) ⟨rfl, hrename⟩))

/-- The log, with the record written as far as `k`. -/
def written (recs : List (Int × Bytes)) (seq : Int) (frame : Bytes) (k : Nat) : Bytes :=
  encodeLog recs ++ (encodeRecord seq frame).take k

private theorem appendLocked_meets {f} (hf : d f = some (encodeLog recs)) (fs : FileStore) (seq : Int) (frame : Bytes) :
    Meets False (fs.appendLocked f seq frame)
      (fun r d' => r = (.ok ((encodeLog recs).length + recordHeaderLen), fs) ∧
        d' = update d f (some (encodeLog (recs ++ [(seq, frame)]))))
      (fun d' => ∃ k, d' = update d f (some (written recs seq frame k))) d := by
  have hcrash : ∃ k, d = update d f (some (written recs seq frame k)) :=
    ⟨0, by rw [written, take_zero, append_nil, ← hf, update_eq_self]⟩
  have hfull : (Op.append f (encodeRecord seq frame)).apply d =
      update d f (some (encodeLog (recs ++ [(seq, frame)]))) := by
    rw [Op.apply, hf, encodeLog_concat]
    rfl
  refine .op rfl hcrash ?_
  show Meets False (Prog.bind (Prog.op _) _) _ _ d
  simp only [Op.reply, hf, getD_some]
  refine .step hcrash (fun d' h => ?_) (.ret ⟨(encodeRecord seq frame).length, ?_⟩ ⟨rfl, hfull⟩)
  · obtain ⟨k, rfl⟩ := torn_append h
    refine ⟨k, ?_⟩
    rw [hf]
    rfl
  · rw [hfull, written, take_length, encodeLog_concat]

/-- The log and the index of a store. -/
structure Indexed (fs : FileStore) (d : Files Path) (recs : List (Int × Bytes)) : Prop where
  log : d .outboundLog = some (encodeLog recs)
  index : fs.index = (recovered recs).index
  storable : ∀ r ∈ recs, Storable r

theorem Indexed.sameFiles (h : Indexed fs d recs) (hd : SameFiles d d') : Indexed fs d' recs :=
  ⟨(hd _ rfl).trans h.log, h.index, h.storable⟩

private theorem readLocked_meets (h : Indexed fs d recs) (seq : Int) :
    Meets False (fs.readLocked seq) (fun r d' => d' = d ∧ r = frameOf? recs seq) (fun d' => d' = d) d := by
  have hindex := recovered_index recs seq []
  rw [← h.index, append_nil] at hindex
  rw [FileStore.readLocked]
  rcases hloc : fs.index[seq]? with _ | _
  · rw [hloc] at hindex
    exact .ret rfl ⟨rfl, hindex.symm⟩
  rw [hloc] at hindex
  obtain ⟨_, hframe, _, hread⟩ := hindex
  refine .op rfl rfl (.ret rfl ⟨rfl, ?_⟩)
  simp only [Op.reply, h.log, getD_some, hread]
  rw [if_neg (by omega), hframe]

def select (recs : List (Int × Bytes)) (seqs : List Int) : List (Int × Bytes) :=
  seqs.filterMap fun seq => (frameOf? recs seq).map fun frame => (seq, frame)

private theorem compactFrom_meets (h : Indexed fs d recs) (seqs : List Int) (done : List (Int × Bytes)) {index}
    (hd : SameFiles d d₁) (hdone : d₁ (.tmp .outboundLog) = some (encodeLog done))
    (hindex : index = (recovered done).index) : Meets False (fs.compactFrom seqs index)
      (fun r d' => SameFiles d d' ∧ r = some (recovered (done ++ select recs seqs)).index ∧
        d' (.tmp .outboundLog) = some (encodeLog (done ++ select recs seqs)))
      (SameFiles d) d₁ := by
  induction seqs generalizing d₁ done index with
  | nil =>
    rw [select, filterMap_nil, append_nil]
    exact .ret hd ⟨hd, by rw [hindex], hdone⟩
  | cons seq seqs ih =>
    refine .bind ((readLocked_meets (h.sameFiles hd) seq).mono (fun r d₂ hr => ?_) fun d₂ hd₂ => hd₂ ▸ hd)
    obtain ⟨rfl, rfl⟩ := hr
    cases hframe : frameOf? recs seq with
    | none =>
      have hselect : select recs (seq :: seqs) = select recs seqs := by
        rw [select, filterMap_cons, hframe]
        rfl
      rw [hselect]
      exact ih _ hd hdone hindex
    | some frame =>
      have hselect : done ++ select recs (seq :: seqs) = done ++ [(seq, frame)] ++ select recs seqs := by
        rw [select, filterMap_cons, hframe, append_assoc]
        rfl
      rw [hselect]
      refine .bind ((appendLocked_meets hdone fs seq frame).mono (fun r d' hr => ?_) fun d' ⟨_, hd'⟩ => ?_)
      · obtain ⟨rfl, rfl⟩ := hr
        refine ih _ (hd.trans (.tmp _ _ _)) (update_self ..) ?_
        rw [recovered_concat, Recovered.add, recovered_off, hindex]
      · rw [hd']
        exact hd.trans (.tmp _ _ _)

private theorem compactLocked_meets (h : Indexed fs d recs) :
    Meets False fs.compactLocked
      (fun fs' d' => fs' = { fs with index := (recovered (select recs fs.kept)).index } ∧
        Replaced .outboundLog (encodeLog (select recs fs.kept)) d d')
      (fun d' => SameFiles d d' ∨ Replaced .outboundLog (encodeLog (select recs fs.kept)) d d') d := by
  have hcreate : SameFiles d ((Op.create (Path.tmp .outboundLog)).apply d) := .tmp d _ _
  have hempty : (Op.create (Path.tmp .outboundLog)).apply d (.tmp .outboundLog) = some (encodeLog []) := by
    simp [Op.apply]
  refine .op rfl (.inl (.refl d))
    (.bind ((compactFrom_meets h fs.kept [] hcreate hempty rfl).mono (fun _ _ hr => ?_) fun _ h => .inl h))
  obtain ⟨hd₁, rfl, hfile⟩ := hr
  have hrename := Replaced.rename hd₁ hfile
  exact .op rfl (.inl hd₁) (.op rfl (.inl hd₁) (.ret (.inr hrename) ⟨rfl, hrename⟩))

/-- The files with the log `recs` and the numbers of the store. -/
def withFiles (recs : List (Int × Bytes)) (nextIn nextOut : Int) (d : Files Path) : Files Path :=
  update (update d .outboundLog (some (encodeLog recs))) .seqNums (some (seqNumsText nextIn nextOut))

theorem Replaced.withFiles {nextIn nextOut : Int} (hlog : d .outboundLog = some (encodeLog recs))
    (hd : Replaced .seqNums (seqNumsText nextIn nextOut) d d') :
    SameFiles (Fix.withFiles recs nextIn nextOut d) d' := by
  rw [Fix.withFiles, ← hlog, update_eq_self]
  exact hd

theorem Replaced.compacted {nextIn nextOut : Int} (hd : Replaced .seqNums (seqNumsText nextIn nextOut) d d₁)
    (hd₁ : Replaced .outboundLog (encodeLog recs) d₁ d') : SameFiles (Fix.withFiles recs nextIn nextOut d) d' := by
  rw [Fix.withFiles, update_comm (by simp)]
  exact (SameFiles.update hd _ _).trans hd₁

theorem syncLocked_meets (fs : FileStore) (d : Files Path) :
    Meets False fs.syncLocked (fun r d' => d' = d ∧ r = (none, fs)) (fun d' => d' = d) d := by
  rw [FileStore.syncLocked]
  split
  · exact .op rfl rfl (.ret rfl ⟨rfl, rfl⟩)
  · exact .ret rfl ⟨rfl, rfl⟩

private theorem finishSave_meets (h : Indexed fs d recs) :
    Meets False fs.finishSave
      (fun r d' => ∃ recs', r = (none, { fs with index := (recovered recs').index }) ∧
        (recs' = recs ∨ recs' = select recs fs.kept) ∧ SameFiles (withFiles recs' fs.nextIn fs.nextOut d) d')
      (fun d' => SameFiles d d' ∨ ∃ recs', (recs' = recs ∨ recs' = select recs fs.kept) ∧
        SameFiles (withFiles recs' fs.nextIn fs.nextOut d) d') d := by
  refine .bind ((syncLocked_meets fs d).mono (fun r d₁ hr => ?_) fun d₁ hd₁ => .inl (hd₁ ▸ .refl d₁))
  obtain ⟨rfl, rfl⟩ := hr
  refine .bind ((writeSeqNumsLocked_meets fs d₁).mono (fun r d₂ hr => ?_) fun d₂ hd₂ => ?_)
  · obtain ⟨rfl, hd₂⟩ := hr
    have hfiles : SameFiles (withFiles recs fs.nextIn fs.nextOut d₁) d₂ := hd₂.withFiles h.log
    simp only
    split
    · have h₂ : Indexed fs d₂ recs := by
        refine ⟨(hd₂ _ rfl).trans ?_, h.index, h.storable⟩
        rw [update_of_ne (by simp), h.log]
      refine .bind ((compactLocked_meets h₂).mono (fun _ d₃ hr => ?_) fun d₃ hd₃ => ?_)
      · obtain ⟨rfl, hd₃⟩ := hr
        exact .ret (.inr ⟨_, .inr rfl, hd₂.compacted hd₃⟩) ⟨_, rfl, .inr rfl, hd₂.compacted hd₃⟩
      · rcases hd₃ with hd₃ | hd₃
        · exact .inr ⟨recs, .inl rfl, hfiles.trans hd₃⟩
        · exact .inr ⟨_, .inr rfl, hd₂.compacted hd₃⟩
    · exact .ret (.inr ⟨recs, .inl rfl, hfiles⟩) ⟨recs, by rw [← h.index], .inl rfl, hfiles⟩
  · exact hd₂.imp_right fun hd₂ => ⟨recs, .inl rfl, hd₂.withFiles h.log⟩

def FileStore.after (recs : List (Int × Bytes)) (seq : Int) (fs : FileStore) : FileStore :=
  { fs with index := (recovered recs).index, nextOut := seq + 1 }

theorem save_meets (h : Indexed fs d recs) (hopen : fs.closed = false) (hfailed : fs.failed = none) {seq : Int} {frame}
    (hr : Storable (seq, frame)) :
    Meets False (fs.save seq frame)
      (fun r d' => ∃ recs', r = (none, fs.after recs' seq) ∧
        (recs' = recs ++ [(seq, frame)] ∨ recs' = select (recs ++ [(seq, frame)]) (fs.after recs seq).kept) ∧
        SameFiles (withFiles recs' fs.nextIn (seq + 1) d) d')
      (fun d' => (∃ k, SameFiles (update d .outboundLog (some (written recs seq frame k))) d') ∨
        ∃ recs', (recs' = recs ++ [(seq, frame)] ∨ recs' = select (recs ++ [(seq, frame)]) (fs.after recs seq).kept) ∧
          SameFiles (withFiles recs' fs.nextIn (seq + 1) d) d') d := by
  have hwritable : fs.writableLocked = none := by rw [FileStore.writableLocked, if_neg (by simp [hopen]), hfailed]
  rw [FileStore.save, hwritable]
  refine .bind ((appendLocked_meets h.log fs seq frame).mono (fun r d₁ hr' => ?_) fun d₁ ⟨k, hk⟩ =>
    .inl ⟨k, hk ▸ .refl d₁⟩)
  obtain ⟨rfl, hd₁⟩ := hr'
  have hindex : fs.index.insert seq ⟨(encodeLog recs).length + recordHeaderLen, frame.length⟩ =
      (recovered (recs ++ [(seq, frame)])).index := by
    rw [recovered_concat, Recovered.add, recovered_off, h.index]
  have hfiles : ∀ recs', withFiles recs' fs.nextIn (seq + 1) d₁ = withFiles recs' fs.nextIn (seq + 1) d := by
    intro recs'
    rw [hd₁, withFiles, update_idem, withFiles]
  have h₁ : Indexed (fs.after (recs ++ [(seq, frame)]) seq) d₁ (recs ++ [(seq, frame)]) := by
    refine ⟨by rw [hd₁, update_self], rfl, fun r hmem => ?_⟩
    rcases mem_append.mp hmem with hmem | hmem
    · exact h.storable r hmem
    · rw [mem_singleton.mp hmem]
      exact hr
  simp only [hindex]
  refine (finishSave_meets h₁).mono (fun r d' hr' => ?_) fun d' hd' => ?_
  · obtain ⟨recs', rfl, hcompact, hd'⟩ := hr'
    exact ⟨recs', rfl, hcompact, hfiles recs' ▸ hd'⟩
  rcases hd' with hd' | ⟨recs', hcompact, hd'⟩
  · refine .inl ⟨(encodeRecord seq frame).length, ?_⟩
    rw [written, take_length, ← encodeLog_concat recs (seq, frame), ← hd₁]
    exact hd'
  · exact .inr ⟨recs', hcompact, hfiles recs' ▸ hd'⟩

theorem setNextInSeq_meets (hopen : fs.closed = false) (hfailed : fs.failed = none) (n : Int) (d : Files Path) :
    Meets False (fs.setNextInSeq n)
      (fun r d' => r = (none, { fs with nextIn := n }) ∧ Replaced .seqNums (seqNumsText n fs.nextOut) d d')
      (fun d' => SameFiles d d' ∨ Replaced .seqNums (seqNumsText n fs.nextOut) d d') d := by
  have hwritable : fs.writableLocked = none := by rw [FileStore.writableLocked, if_neg (by simp [hopen]), hfailed]
  rw [FileStore.setNextInSeq, hwritable]
  refine .bind ((writeSeqNumsLocked_meets { fs with nextIn := n } d).mono (fun r d' hr => ?_) fun _ h => h)
  obtain ⟨rfl, hd'⟩ := hr
  exact .ret (.inr hd') ⟨rfl, hd'⟩

theorem get_meets (h : Indexed fs d recs) (hopen : fs.closed = false) (seq : Int) :
    Meets False (fs.get seq)
      (fun r d' => d' = d ∧ r = if seq < fs.nextOut - fs.opts.maxMessages then none else frameOf? recs seq)
      (fun d' => d' = d) d := by
  rw [FileStore.get, hopen, Bool.false_or]
  split
  · rename_i hseq
    rw [decide_eq_true_eq] at hseq
    exact .ret rfl ⟨rfl, by rw [if_pos hseq]⟩
  rename_i hseq
  rw [decide_eq_true_eq] at hseq
  rw [if_neg hseq]
  exact readLocked_meets h seq

/-- The numbers in the file, or those of a new store. -/
def storedNums : Option Bytes → Option (Int × Int)
  | none => some (1, 1)
  | some raw => scanSeqNums raw

/-- The store that is loaded from a log and numbers. -/
def FileStore.loaded (b : Bytes) (nums : Option (Int × Int)) (fs : FileStore) : Except String FileStore :=
  match nums with
  | none => .error "corrupt seqnums"
  | some (nextIn, nextOut) =>
    .ok { fs with index := (scanLog b).index, nextIn, nextOut := max nextOut ((scanLog b).maxSeq + 1) }

private theorem loadSeqNums_meets (hin : fs.nextIn = 1) (hout : fs.nextOut = 1) (b : Bytes) (d : Files Path) :
    Meets False (FileStore.loadSeqNums (scanLog b).maxSeq { fs with index := (scanLog b).index }).run
      (fun r d' => r = fs.loaded b (storedNums (d .seqNums)) ∧ d' = d) (fun d' => d' = d) d := by
  refine .attempt rfl rfl ?_
  rw [show Op.reply (.read .seqNums) d = d .seqNums from rfl]
  cases hraw : d .seqNums with
  | none =>
    refine .ret rfl ⟨?_, rfl⟩
    obtain ⟨_, _, _, _, _, _, _⟩ := fs
    cases hin
    cases hout
    rfl
  | some raw =>
    rw [storedNums]
    cases hscan : scanSeqNums raw with
    | none | some =>
      simp only [hscan]
      exact .ret rfl ⟨rfl, rfl⟩

/-- The log without what is behind its whole records. -/
def cutLog (b : Bytes) : Bytes := b.take (scanLog b).off ++ List.replicate ((scanLog b).off - b.length) 0

private theorem cutLog_records (hrecs : ∀ r ∈ recs, Storable r) {tail} (htail : TornRecord tail) :
    cutLog (encodeLog recs ++ tail) = encodeLog recs := by
  rw [cutLog, scanLog_records hrecs htail, recovered_off, take_left, length_append,
    Nat.sub_eq_zero_of_le (Nat.le_add_right _ _), replicate_zero, append_nil]

theorem load_meets (hin : fs.nextIn = 1) (hout : fs.nextOut = 1) {b : Bytes} (hlog : d .outboundLog = some b) :
    Meets False fs.load.run
      (fun r d' => r = fs.loaded b (storedNums (d .seqNums)) ∧ d' = update d .outboundLog (some (cutLog b)))
      (fun d' => d' = d ∨ d' = update d .outboundLog (some (cutLog b))) d := by
  have htruncate : (Op.truncate .outboundLog (scanLog b).off).apply d = update d .outboundLog (some (cutLog b)) := by
    simp only [Op.apply, hlog, map_some]
    rfl
  refine .andThen ?_
  refine .attempt rfl (.inl rfl) ?_
  simp only [Op.reply, hlog, getD_some]
  refine .attempt rfl (.inl rfl) ?_
  rw [Op.apply_read, htruncate]
  have hnums : d .seqNums = update d .outboundLog (some (cutLog b)) .seqNums := by
    rw [update_of_ne (by simp)]
  rw [hnums]
  exact .ret (.inr rfl) ((loadSeqNums_meets hin hout b _).mono (fun _ _ hr => hr) fun _ hd' => .inr hd')

theorem open_scan {b : Bytes} (hlog : (d .outboundLog).getD [] = b) (hpending : d .resetPending = none) (dir : String)
    (opts : FileStoreOptions) :
    Meets False (openFileStore dir opts).run
      (fun r d' => r = FileStore.loaded b (storedNums (d .seqNums)) { dir, opts := opts.withDefaults } ∧
        d' = update d .outboundLog (some (cutLog b)))
      (fun d' => d' = d ∨ d' = update d .outboundLog (some b) ∨ d' = update d .outboundLog (some (cutLog b))) d := by
  have htouch : (Op.touch .outboundLog).apply d = update d .outboundLog (some b) := by
    rw [Op.apply, hlog]
  refine .attempt rfl (.inl rfl) ?_
  refine .attempt rfl (.inl rfl) ?_
  show Meets False _ _ _ ((Op.touch .outboundLog).apply d)
  rw [htouch]
  obtain ⟨d₁, hd₁⟩ : ∃ d₁, d₁ = update d .outboundLog (some b) := ⟨_, rfl⟩
  have hpending₁ : d₁ .resetPending = none := by rw [hd₁, update_of_ne (by simp), hpending]
  have hnums₁ : d₁ .seqNums = d .seqNums := by rw [hd₁, update_of_ne (by simp)]
  have hlog₁ : d₁ .outboundLog = some b := hd₁ ▸ update_self ..
  have hcut : update d₁ .outboundLog (some (cutLog b)) = update d .outboundLog (some (cutLog b)) := by
    rw [hd₁, update_idem]
  rw [← hd₁]
  refine .andThen (.attempt rfl (.inr (.inl rfl)) ?_)
  simp only [Op.reply, hpending₁]
  refine .ret (.inr (.inl rfl)) ((load_meets rfl rfl hlog₁).mono (fun r d' hr => ⟨?_, hr.2.trans hcut⟩) fun d' hd' =>
    ?_)
  · rw [hr.1, hnums₁]
  · exact .inr (hd'.imp_right fun h => h.trans hcut)

/-- Opening a store with a torn record behind its log. -/
theorem open_meets {tail : Bytes} (hlog : (d .outboundLog).getD [] = encodeLog recs ++ tail) (htail : TornRecord tail)
    (hrecs : ∀ r ∈ recs, Storable r) {nextIn nextOut : Int} (hnums : storedNums (d .seqNums) = some (nextIn, nextOut))
    (hpending : d .resetPending = none) (dir : String) (opts : FileStoreOptions) :
    Meets False (openFileStore dir opts).run
      (fun r d' => r = .ok { dir, opts := opts.withDefaults, index := (recovered recs).index, nextIn
                             nextOut := max nextOut ((recovered recs).maxSeq + 1) } ∧
        d' = update d .outboundLog (some (encodeLog recs)))
      (fun d' => d' = d ∨ ∃ torn, TornRecord torn ∧ d' = update d .outboundLog (some (encodeLog recs ++ torn))) d := by
  have h := open_scan hlog hpending dir opts
  rw [hnums, FileStore.loaded, scanLog_records hrecs htail, cutLog_records hrecs htail] at h
  refine h.mono (fun _ _ hr => hr) fun d' hd' => hd'.imp_right ?_
  rintro (hd' | hd')
  · exact ⟨tail, htail, hd'⟩
  · exact ⟨[], .inl rfl, by rw [append_nil, hd']⟩

end Fxp.Fix
