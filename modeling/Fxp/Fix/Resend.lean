import Fxp.Fix.Codec
import Mathlib

/-!
# Resending

A ResendRequest is answered from the store of sent messages: an application message is sent again with PossDupFlag,
and every run of numbers without one becomes one SequenceReset-GapFill.
-/

namespace Fxp.Fix

open List Option

variable {fields : List Field}

def isAdminMsgType (t : Bytes) : Bool :=
  [text "A", text "0", text "1", text "2", text "3", text "4", text "5"].contains t

/-- The fields of a stored message that are sent again as they are. -/
def keeps (f : Field) : Bool := ¬ [8, 9, 10, 35, 49, 56, 34, 52, 43, 122].contains f.tag

/-- What answers a ResendRequest: the CompIDs, the store, the clock readings per number, and whether the queue takes a
frame. -/
structure Link where
  senderCompID : Bytes
  targetCompID : Bytes
  store : Int → Option Bytes
  sendingTime : Int → Bytes
  origSendingTime : Int → Bytes
  accepts : Bytes → Bool
  sender_soh : soh ∉ senderCompID
  target_soh : soh ∉ targetCompID
  time_soh : ∀ n, soh ∉ sendingTime n ∧ soh ∉ origSendingTime n

namespace Link

variable (l : Link)

def storedMessage (seq : Int) : Option Message :=
  (l.store seq).bind fun raw =>
    match readMessage {} raw with
    | .ok (m, _) => some m
    | .error _ => none

def resendBuilder (m : Message) (seq : Int) : Builder :=
  let b := newBuilder m.msgType l.senderCompID l.targetCompID seq (l.sendingTime seq)
  let b := Builder.set 43 (text "Y") b
  let b := Builder.set 122 (m.get 52) b
  b ++ m.tags.filter keeps

def resendFrame (m : Message) (seq : Int) : Bytes := build (l.resendBuilder m seq)

def gapBuilder (gapStart next : Int) : Builder :=
  let b := newBuilder (text "4") l.senderCompID l.targetCompID gapStart (l.sendingTime gapStart)
  let b := Builder.set 43 (text "Y") b
  let b := Builder.set 122 (l.origSendingTime gapStart) b
  let b := Builder.set 123 (text "Y") b
  Builder.set 36 (itoa next) b

/-- Queues a frame: the frames so far, and whether this one was taken. -/
def enqueue (frame : Bytes) (frames : List Bytes) : List Bytes × Bool :=
  if l.accepts frame then (frames ++ [frame], true) else (frames, false)

def flushGap (gapStart next : Int) (frames : List Bytes) : List Bytes × Bool :=
  if gapStart = 0 then (frames, true) else l.enqueue (build (l.gapBuilder gapStart next)) frames

/-- The loop over `n` numbers from `seq` on; `gapStart` is the start of the gap that is still to be sent, or zero. -/
def resendLoop : Nat → Int → Int → List Bytes → List Bytes
  | 0, seq, gapStart, frames => (l.flushGap gapStart seq frames).1
  | n + 1, seq, gapStart, frames =>
    match l.storedMessage seq with
    | none => resendLoop n (seq + 1) (if gapStart = 0 then seq else gapStart) frames
    | some m =>
      if isAdminMsgType m.msgType then resendLoop n (seq + 1) (if gapStart = 0 then seq else gapStart) frames
      else
        let (frames, flushed) := l.flushGap gapStart seq frames
        if ¬ flushed then frames
        else
          let (frames, sent) := l.enqueue (l.resendFrame m seq) frames
          if ¬ sent then frames else resendLoop n (seq + 1) 0 frames

/-- The first and the last number that are sent again. -/
def firstSeq («begin» : Int) : Int := if «begin» < 1 then 1 else «begin»

def lastSeq (outSeqNum : Nat) («end» : Int) : Int :=
  let last : Int := outSeqNum - 1
  if «end» = 0 ∨ last < «end» then last else «end»

def handleResendRequest (outSeqNum : Nat) (msg : Message) : List Bytes :=
  let first := firstSeq (msg.getInt 7)
  let last := lastSeq outSeqNum (msg.getInt 16)
  l.resendLoop (last - first + 1).toNat first 0 []

end Link

private theorem get_of_forall_ne {tags} {t : Nat} (h : ∀ f ∈ tags, f.tag ≠ t) : Message.get ⟨tags⟩ t = [] := by
  have : tags.reverse.find? (·.tag = t) = none := find?_eq_none.mpr (by simpa using h)
  simp [Message.get, Message.field?, this]

private theorem get_append {front back} {t : Nat} (h : ∀ f ∈ back, f.tag ≠ t) :
    Message.get ⟨front ++ back⟩ t = Message.get ⟨front⟩ t := by
  have : back.reverse.find? (·.tag = t) = none := find?_eq_none.mpr (by simpa using h)
  simp [Message.get, Message.field?, this]

private theorem get_cons_of_ne {f tags} {t : Nat} (h : f.tag ≠ t) :
    Message.get ⟨f :: tags⟩ t = Message.get ⟨tags⟩ t := by
  simp [Message.get, Message.field?, h]

private theorem get_of_mem {tags} (hnodup : (tags.map (·.tag)).Nodup) {f} (hf : f ∈ tags) :
    Message.get ⟨tags⟩ f.tag = f.value := by
  obtain ⟨g, hg⟩ : ∃ g, tags.reverse.find? (·.tag = f.tag) = some g :=
    isSome_iff_exists.mp (find?_isSome.mpr ⟨f, by simpa using hf, by simp⟩)
  have hmem : g ∈ tags := by simpa using mem_of_find?_eq_some hg
  have htag : g.tag = f.tag := by simpa using find?_some hg
  rw [Message.get, Message.field?, hg, inj_on_of_nodup_map hnodup hmem hf htag]
  rfl

/-- Leaving out the fields without a value does not change what is read, if no tag occurs twice. -/
theorem get_filter {tags : List Field} (hnodup : (tags.map (·.tag)).Nodup) {f : Field} (hf : f ∈ tags) :
    Message.get ⟨tags.filter (·.value ≠ [])⟩ f.tag = f.value := by
  by_cases hempty : f.value = []
  · rw [hempty]
    refine get_of_forall_ne fun _ hg htag => ?_
    obtain ⟨hmem, hvalue⟩ := mem_filter.mp hg
    rw [inj_on_of_nodup_map hnodup hmem hf htag, hempty] at hvalue
    exact absurd hvalue (by decide)
  · exact get_of_mem (hnodup.sublist (filter_sublist.map _)) (mem_filter.mpr ⟨hf, by simpa using hempty⟩)

theorem Framed.append {fields'} (h : Framed fields) (h' : Framed fields') :
    Framed (fields ++ fields') := by
  induction h with
  | nil => exact h'
  | plain htag hlength hvalue _ ih => exact .plain htag hlength hvalue ih
  | data htag hlength hvalue hdata _ ih => exact .data htag hlength hvalue hdata ih

private theorem keeps_of_lengthDataTags {t t' : Nat} (h : lengthDataTags t = some t') (v v' : Bytes) :
    keeps ⟨t, v⟩ = true ∧ keeps ⟨t', v'⟩ = true := by
  unfold lengthDataTags at h
  split at h <;> first | (cases h; exact ⟨rfl, rfl⟩) | cases h

theorem Framed.keeps (h : Framed fields) : Framed (fields.filter keeps) := by
  induction h with
  | nil => exact .nil
  | @plain _ _ htag hlength hvalue _ ih =>
    rw [filter_cons]
    split
    · exact .plain htag hlength hvalue ih
    · exact ih
  | @data f d _ htag hlength hvalue hdata _ ih =>
    obtain ⟨hf, hd⟩ := keeps_of_lengthDataTags hlength f.value d.value
    rw [filter_cons_of_pos hf, filter_cons_of_pos hd]
    exact .data htag hlength hvalue hdata ih

theorem Framed.soh (h : Framed fields) {f} (hf : f ∈ fields) (hkeeps : Fxp.Fix.keeps f = false) :
    soh ∉ f.value := by
  induction h with
  | nil => cases hf
  | plain _ _ hvalue _ ih =>
    rcases mem_cons.mp hf with rfl | hf
    · exact hvalue
    · exact ih hf
  | @data f' _ _ _ hlength hvalue _ _ ih =>
    rcases mem_cons.mp hf with rfl | hf
    · exact hvalue
    rcases mem_cons.mp hf with rfl | hf
    · rw [(keeps_of_lengthDataTags hlength f'.value f.value).2] at hkeeps
      cases hkeeps
    · exact ih hf

private theorem soh_itoa (n : Int) : soh ∉ itoa n := not_mem_itoa (by decide) (by decide) n

private theorem plain (t : Nat) {v} (ht : 0 < t ∧ t < 2 ^ 63 ∧ lengthDataTags t = none) (hv : soh ∉ v) : Plain ⟨t, v⟩ :=
  ⟨ht, hv⟩

private theorem exists_of_get_ne_nil {m : Message} {t : Nat} (h : m.get t ≠ []) : ∃ f ∈ m.tags, f.tag = t ∧
    f.value = m.get t := by
  cases hfind : m.tags.reverse.find? (·.tag = t) with
  | none => exact absurd (by simp [Message.get, Message.field?, hfind]) h
  | some f =>
    refine ⟨f, by simpa using mem_of_find?_eq_some hfind, by simpa using find?_some hfind, ?_⟩
    simp [Message.get, Message.field?, hfind]

private theorem soh_get {m : Message} {t : Nat} (h : ∀ f ∈ m.tags, f.tag = t → soh ∉ f.value) : soh ∉ m.get t := by
  intro hmem
  obtain ⟨f, hf, htag, hvalue⟩ := exists_of_get_ne_nil (ne_nil_of_mem hmem)
  rw [← hvalue] at hmem
  exact h f hf htag hmem

/-- Fields that announce no data are read off the front. -/
theorem parseFieldsAux_append {front : List Field} (hfront : ∀ f ∈ front, Plain f) {rest : Bytes} {fuel : Nat}
    (h : parseFieldsAux fuel (front.flatMap Field.bytes ++ rest) = some fields) :
    ∃ fuel back, fields = front ++ back ∧ parseFieldsAux fuel rest = some back := by
  induction front generalizing fuel fields with
  | nil => exact ⟨fuel, fields, rfl, h⟩
  | cons f front ih =>
    obtain ⟨⟨hpos, hlt, hlength⟩, hvalue⟩ := hfront f mem_cons_self
    rw [flatMap_cons, append_assoc, Field.bytes_append] at h
    cases fuel with
    | zero =>
      rcases hdata : decimal f.tag ++ eqSign :: f.value ++ soh :: (front.flatMap Field.bytes ++ rest) with _ | _
      · simp at hdata
      · rw [hdata] at h
        cases h
    | succ fuel =>
      rw [parseFieldsAux, cut_append (soh_not_mem_pair hvalue)] at h
      · simp only [bind_eq_bind, bind_some, parseTagValue_bytes ⟨hpos, hlt⟩, hlength] at h
        obtain ⟨_, htail, h⟩ := bind_eq_some_iff.mp h
        cases h
        obtain ⟨fuel, back, rfl, hback⟩ := ih (fun g hg => hfront g (mem_cons_of_mem _ hg)) htail
        exact ⟨fuel, back, rfl, hback⟩
      · simp

/-- Leaving out a field makes the bytes fewer. -/
theorem of_length_filter_bytes {p : Field → Bool}
    (h : (fields.flatMap Field.bytes).length ≤ ((fields.filter p).flatMap Field.bytes).length) :
    ∀ f ∈ fields, p f = true := by
  induction fields with
  | nil => nofun
  | cons f fields ih =>
    have hle := ((filter_sublist (p := p) (l := fields)).flatMap Field.bytes).length_le
    rw [flatMap_cons, length_append] at h
    cases hf : p f with
    | true =>
      rw [filter_cons_of_pos hf, flatMap_cons, length_append] at h
      exact forall_mem_cons.mpr ⟨hf, ih (by omega)⟩
    | false =>
      have hpos : 0 < f.bytes.length := by simp [Field.bytes]
      rw [filter_cons_of_neg (by simp [hf])] at h
      omega

namespace Link

variable (l : Link)

def application (seq : Int) : Option Message := (l.storedMessage seq).filter fun m => ¬ isAdminMsgType m.msgType

/-- One frame of an answer: a message that is sent again, or the numbers from `start` up to `next`. -/
inductive Segment
  | message (seq : Int) (m : Message)
  | gap (start next : Int)

/-- The segments cover the numbers from `first` to `last` once and in order, and a gap is as long as it can be. -/
inductive Tiles : Int → Int → List Segment → Prop
  | nil {first last} (h : last < first) : Tiles first last []
  | message {first last m segments} (hle : first ≤ last)
      (happ : l.application first = some m) (h : Tiles (first + 1) last segments) :
      Tiles first last (.message first m :: segments)
  | gap {first last next segments} (hlt : first < next) (hle : next ≤ last + 1)
      (hnone : ∀ n, first ≤ n → n < next → l.application n = none)
      (hend : next = last + 1 ∨ (l.application next).isSome) (h : Tiles next last segments) :
      Tiles first last (.gap first next :: segments)

def frameOf : Segment → Bytes
  | .message seq m => l.resendFrame m seq
  | .gap start next => build (l.gapBuilder start next)

variable {l}

private theorem enqueue_accepted (hall : ∀ frame, l.accepts frame = true) (frame : Bytes) (frames : List Bytes) :
    l.enqueue frame frames = (frames ++ [frame], true) := by
  rw [enqueue, if_pos (hall frame)]

/-- A gap that is open stays open, or begins, at a number without an application message. -/
theorem gap_grows {seq gapStart : Int} (hseq : 1 ≤ seq)
    (hgap : gapStart = 0 ∨ 1 ≤ gapStart ∧ gapStart < seq ∧ ∀ n, gapStart ≤ n → n < seq → l.application n = none)
    (hnone : l.application seq = none) :
    let start := if gapStart = 0 then seq else gapStart
    start ≠ 0 ∧ 1 ≤ start ∧ start < seq + 1 ∧ ∀ n, start ≤ n → n < seq + 1 → l.application n = none := by
  by_cases h0 : gapStart = 0
  · simp only [h0, if_true]
    refine ⟨by omega, hseq, by omega, fun n h1 h2 => ?_⟩
    obtain rfl : n = seq := by omega
    exact hnone
  obtain ⟨hpos, _, hall⟩ := hgap.resolve_left h0
  simp only [h0, if_false]
  refine ⟨by omega, hpos, by omega, fun n h1 h2 => ?_⟩
  by_cases hn : n = seq
  · rw [hn]
    exact hnone
  · exact hall n h1 (by omega)

private theorem resendLoop_tiles (hall : ∀ frame, l.accepts frame = true) (n : Nat) {seq gapStart : Int}
    (hseq : 1 ≤ seq)
    (hgap : gapStart = 0 ∨ 1 ≤ gapStart ∧ gapStart < seq ∧ ∀ n, gapStart ≤ n → n < seq → l.application n = none)
    (frames : List Bytes) :
    ∃ segments, l.resendLoop n seq gapStart frames = frames ++ segments.map l.frameOf
      ∧ l.Tiles (if gapStart = 0 then seq else gapStart) (seq + n - 1) segments := by
  induction n generalizing seq gapStart frames with
  | zero =>
    rw [resendLoop, flushGap]
    by_cases h0 : gapStart = 0
    · simp only [h0, if_true]
      exact ⟨[], (append_nil _).symm, .nil (by omega)⟩
    obtain ⟨_, hlt, hnone⟩ := hgap.resolve_left h0
    simp only [h0, if_false, enqueue_accepted hall]
    exact ⟨[.gap gapStart seq], rfl, .gap hlt (by omega) hnone (.inl (by omega)) (.nil (by omega))⟩
  | succ n ih =>
    have hlast : seq + 1 + (n : Int) - 1 = seq + ((n + 1 : Nat) : Int) - 1 := by omega
    -- without an application message the loop goes on with a gap
    have hskip (hnone : l.application seq = none) : ∃ segments,
        l.resendLoop n (seq + 1) (if gapStart = 0 then seq else gapStart) frames = frames ++ segments.map l.frameOf
          ∧ l.Tiles (if gapStart = 0 then seq else gapStart) (seq + ((n + 1 : Nat) : Int) - 1) segments := by
      obtain ⟨hstart, hgrown⟩ := gap_grows hseq hgap hnone
      obtain ⟨segments, hloop, htiles⟩ := ih (by omega) (.inr hgrown) frames
      rw [if_neg hstart, hlast] at htiles
      exact ⟨segments, hloop, htiles⟩
    rw [resendLoop]
    rcases hstored : l.storedMessage seq with _ | m
    · exact hskip (by rw [application, hstored]; rfl)
    by_cases hadmin : isAdminMsgType m.msgType = true
    · simp only [hadmin, if_true]
      exact hskip (by rw [application, hstored]; simp [hadmin])
    have happ : l.application seq = some m := by
      rw [application, hstored]
      simp [hadmin]
    -- the rest of the loop, behind this message
    have hsent (frames : List Bytes) : ∃ segments,
        l.resendLoop n (seq + 1) 0 (frames ++ [l.resendFrame m seq]) = frames ++ segments.map l.frameOf
          ∧ l.Tiles seq (seq + ((n + 1 : Nat) : Int) - 1) segments := by
      have hnext : 1 ≤ seq + 1 := by omega
      obtain ⟨segments, hloop, htiles⟩ := ih hnext (.inl rfl) (frames ++ [l.resendFrame m seq])
      rw [if_pos rfl, hlast] at htiles
      refine ⟨.message seq m :: segments, ?_, .message (by omega) happ htiles⟩
      rw [hloop, append_assoc]
      rfl
    by_cases h0 : gapStart = 0
    · obtain ⟨segments, hloop, _⟩ := hsent frames
      refine ⟨segments, ?_, by rwa [if_pos h0]⟩
      simp [hadmin, flushGap, h0, enqueue_accepted hall, hloop]
    obtain ⟨_, hlt, hnone⟩ := hgap.resolve_left h0
    obtain ⟨segments, hloop, htiles⟩ := hsent (frames ++ [build (l.gapBuilder gapStart seq)])
    refine ⟨.gap gapStart seq :: segments, ?_, ?_⟩
    · simp only [hadmin, flushGap, h0, enqueue_accepted hall, Bool.false_eq_true, if_false, not_true_eq_false]
      rw [hloop, append_assoc]
      rfl
    · rw [if_neg h0]
      exact .gap hlt (by omega) hnone (.inr (by rw [happ]; rfl)) htiles

/-- A parser with room for the frame reads it as `m`. -/
def Reads (frame : Bytes) (m : Message) : Prop :=
  ∀ p : Parser, p.beginString = text "FIX.4.4" → frame.length ≤ p.maxBodyLength → p.maxBodyLength < 2 ^ 63 →
    readMessage p frame = .ok (m, [])

/-- What the frame of a segment says. -/
def Carries : Segment → Message → Prop
  | .message seq m, sent =>
    sent.msgType = m.msgType ∧ sent.getInt 34 = seq ∧ sent.get 43 = text "Y" ∧ sent.get 122 = m.get 52
      ∧ sent.tags.filter keeps = m.tags.filter keeps
  | .gap start next, sent =>
    sent.msgType = text "4" ∧ sent.getInt 34 = start ∧ sent.get 43 = text "Y" ∧ sent.get 123 = text "Y"
      ∧ sent.getInt 36 = next

/-- No field that is to be sent again is empty, nor the type. -/
def Sendable (m : Message) : Prop := m.msgType ≠ [] ∧ ∀ f ∈ m.tags, keeps f → f.value ≠ []

/-- How a peer that expects a number takes a frame. -/
def peer (expected : Int) (m : Message) : Int :=
  if m.getInt 34 = expected then if m.msgType = text "4" ∧ m.get 123 = text "Y" then m.getInt 36 else expected + 1
  else expected

private theorem gapBuilder_eq (start next : Int) :
    l.gapBuilder start next = [⟨35, text "4"⟩, ⟨49, l.senderCompID⟩, ⟨56, l.targetCompID⟩, ⟨34, itoa start⟩,
      ⟨52, l.sendingTime start⟩, ⟨43, text "Y"⟩, ⟨122, l.origSendingTime start⟩, ⟨123, text "Y"⟩, ⟨36, itoa next⟩] :=
      rfl

/-- A frame is read as the message with the fields that have a value. -/
theorem reads_build {b : Builder} {t : Bytes} {rest : List Field} (hb : b = ⟨35, t⟩ :: rest) (ht : t ≠ [])
    (hframed : Framed (b.filter (·.value ≠ []))) (hsum : ∀ f ∈ b, f.tag ≠ 10) :
    Reads (build b) (messageOf (b.filter (·.value ≠ []))) := by
  intro p hbegin hsize hmax
  have hlength : ((b.filter (·.value ≠ [])).flatMap Field.bytes).length ≤ (build b).length := by
    rw [build, wire_eq]
    simp only [length_append]
    omega
  rw [← append_nil (build b)]
  refine readMessage_wire hframed ?_ (fun f hf => hsum f (mem_of_mem_filter hf)) hbegin (by omega) (by omega) []
  rw [hb, filter_cons_of_pos (by simpa using ht)]
  rfl

private theorem get_messageOf {front back : List Field} (hnodup : (front.map (·.tag)).Nodup) {f : Field}
    (hf : f ∈ front) (hback : ∀ g ∈ back, g.tag ≠ f.tag) (h8 : 8 ≠ f.tag) (h9 : 9 ≠ f.tag) (h10 : 10 ≠ f.tag) :
    (messageOf ((front ++ back).filter (·.value ≠ []))).get f.tag = f.value := by
  rw [messageOf, cons_append, get_cons_of_ne h8, cons_append, get_cons_of_ne h9,
    get_append (fun g hg => by rw [mem_singleton.mp hg]; exact h10), filter_append, get_append,
    get_filter hnodup hf]
  exact fun g hg => hback g (mem_of_mem_filter hg)

private theorem gapBuilder_plain (start next : Int) : ∀ f ∈ l.gapBuilder start next, Plain f := by
  have htime := l.time_soh start
  rw [gapBuilder_eq]
  simp only [forall_mem_cons, not_mem_nil, false_imp_iff, implies_true, and_true]
  exact ⟨plain 35 (by decide) (by decide +kernel), plain 49 (by decide) l.sender_soh, plain 56 (by decide) l.target_soh,
    plain 34 (by decide) (soh_itoa start), plain 52 (by decide) htime.1, plain 43 (by decide) (by decide +kernel),
    plain 122 (by decide) htime.2, plain 123 (by decide) (by decide +kernel), plain 36 (by decide) (soh_itoa next)⟩

private theorem carries_gap {start next : Int} (h0 : 0 ≤ start) (hlt : start < next) (hmax : next < 2 ^ 63) :
    ∃ sent, Reads (l.frameOf (.gap start next)) sent ∧ Carries (.gap start next) sent := by
  have hframed : Framed ((l.gapBuilder start next).filter (·.value ≠ [])) :=
    Framed.of_plain fun f hf => gapBuilder_plain start next f (mem_of_mem_filter hf)
  refine ⟨_, reads_build (gapBuilder_eq start next) (by decide +kernel) hframed ?_, ?_⟩
  · rw [gapBuilder_eq]
    simp
  have hget (t : Nat) (v : Bytes) (hf : ⟨t, v⟩ ∈ l.gapBuilder start next) (h8 : 8 ≠ t) (h9 : 9 ≠ t) (h10 : 10 ≠ t) :
      (messageOf ((l.gapBuilder start next).filter (·.value ≠ []))).get t = v := by
    have hnodup : ((l.gapBuilder start next).map (·.tag)).Nodup := by
      rw [gapBuilder_eq]
      simp
    have := @get_messageOf _ [] hnodup ⟨t, v⟩ hf nofun h8 h9 h10
    rwa [append_nil] at this
  rw [gapBuilder_eq] at hget
  refine ⟨hget 35 _ (by simp) (by decide) (by decide) (by decide), ?_,
    hget 43 _ (by simp) (by decide) (by decide) (by decide), hget 123 _ (by simp) (by decide) (by decide) (by decide),
    ?_⟩
  · rw [Message.getInt, gapBuilder_eq, hget 34 (itoa start) (by simp) (by decide) (by decide) (by decide),
      atoi_itoa h0 (by omega), getD_some]
  · rw [Message.getInt, gapBuilder_eq, hget 36 (itoa next) (by simp) (by decide) (by decide) (by decide),
      atoi_itoa (by omega) hmax, getD_some]

private theorem storedMessage_spec {seq : Int} {m} (h : l.storedMessage seq = some m) :
    Framed (m.tags.filter keeps) ∧ (∀ f ∈ m.tags, f.tag = 35 ∨ f.tag = 52 → soh ∉ f.value) := by
  obtain ⟨raw, -, hread⟩ := bind_eq_some_iff.mp h
  rcases hm : readMessage {} raw with _ | r
  · rw [hm] at hread
    cases hread
  obtain ⟨_, _⟩ := r
  rw [hm] at hread
  cases hread
  obtain ⟨_, _, fields, _, -, htags, h8, h9, h10, hframed, -⟩ := of_readMessage hm
  have hfilter : m.tags.filter keeps = fields.filter keeps := by
    simp [htags, filter_append, keeps, h8, h9, h10]
  rw [hfilter]
  refine ⟨hframed.keeps, fun f hf htag => ?_⟩
  have hmem : f ∈ fields := by
    rw [htags] at hf
    simp only [cons_append, mem_cons, mem_append, not_mem_nil, or_false] at hf
    rcases hf with rfl | rfl | hf | rfl
    · omega
    · omega
    · exact hf
    · omega
  exact hframed.soh hmem (by rcases htag with htag | htag <;> simp [keeps, htag])

/-- The fields before those that are sent again as they are. -/
def resendHeader (l : Link) (m : Message) (seq : Int) : List Field :=
  [⟨35, m.msgType⟩, ⟨49, l.senderCompID⟩, ⟨56, l.targetCompID⟩, ⟨34, itoa seq⟩, ⟨52, l.sendingTime seq⟩, ⟨43, text "Y"⟩,
    ⟨122, m.get 52⟩]

private theorem resendBuilder_eq (m : Message) (seq : Int) :
    l.resendBuilder m seq = l.resendHeader m seq ++ m.tags.filter keeps := rfl

private theorem resendHeader_plain {m : Message} (hsoh : ∀ f ∈ m.tags, f.tag = 35 ∨ f.tag = 52 → soh ∉ f.value)
    (seq : Int) : ∀ f ∈ l.resendHeader m seq, Plain f := by
  rw [resendHeader]
  simp only [forall_mem_cons, not_mem_nil, false_imp_iff, implies_true, and_true]
  exact ⟨plain 35 (by decide) (soh_get fun f hf htag => hsoh f hf (.inl htag)), plain 49 (by decide) l.sender_soh,
    plain 56 (by decide) l.target_soh, plain 34 (by decide) (soh_itoa seq), plain 52 (by decide) (l.time_soh seq).1,
    plain 43 (by decide) (by decide +kernel),
    plain 122 (by decide) (soh_get fun f hf htag => hsoh f hf (.inr htag))⟩

private theorem resendHeader_keeps (m : Message) (seq : Int) : ∀ f ∈ l.resendHeader m seq, keeps f = false := by
  rw [resendHeader]
  simp [keeps]

private theorem resendHeader_sum (m : Message) (seq : Int) : ∀ f ∈ l.resendHeader m seq, f.tag ≠ 10 := by
  simp [resendHeader]

/-- Of a frame that was sent again only the fields behind the header are kept. -/
theorem filter_keeps (m : Message) (seq : Int) (fields back : List Field) :
    (beginField :: lengthField fields :: ((l.resendHeader m seq).filter (·.value ≠ []) ++ back)
      ++ [checksumField fields]).filter keeps = back.filter keeps := by
  have h8 : keeps beginField = false := rfl
  have h9 : keeps (lengthField fields) = false := rfl
  have h10 : keeps (checksumField fields) = false := rfl
  have hheader : ((l.resendHeader m seq).filter (·.value ≠ [])).filter keeps = [] :=
    filter_eq_nil_iff.mpr fun f hf => by simp [resendHeader_keeps m seq f (mem_of_mem_filter hf)]
  simp only [filter_append, filter_cons, cons_append, h8, h9, h10, hheader, filter_nil, Bool.false_eq_true, if_false,
    nil_append, append_nil]

private theorem carries_message {seq : Int} {m : Message} (happ : l.application seq = some m)
    (hsendable : Sendable m) (h0 : 0 ≤ seq) (hmax : seq < 2 ^ 63) :
    ∃ sent, Reads (l.frameOf (.message seq m)) sent ∧ Carries (.message seq m) sent := by
  obtain ⟨hstored, -⟩ := filter_eq_some_iff.mp happ
  obtain ⟨hkept, hsoh⟩ := storedMessage_spec hstored
  have hnonempty : (m.tags.filter keeps).filter (·.value ≠ []) = m.tags.filter keeps :=
    filter_eq_self.mpr fun f hf => by simpa using hsendable.2 f (mem_of_mem_filter hf) (of_mem_filter hf)
  have hframed : Framed ((l.resendBuilder m seq).filter (·.value ≠ [])) := by
    rw [resendBuilder_eq, filter_append, hnonempty]
    exact (Framed.of_plain fun f hf => resendHeader_plain hsoh seq f (mem_of_mem_filter hf)).append hkept
  have hsum : ∀ f ∈ l.resendBuilder m seq, f.tag ≠ 10 := by
    rw [resendBuilder_eq]
    intro f hf
    rcases mem_append.mp hf with hf | hf
    · exact resendHeader_sum m seq f hf
    intro h10
    have := of_mem_filter hf
    simp [keeps, h10] at this
  refine ⟨_, reads_build rfl hsendable.1 hframed hsum, ?_⟩
  have hget (t : Nat) (v : Bytes) (hf : ⟨t, v⟩ ∈ l.resendHeader m seq) (h8 : 8 ≠ t) (h9 : 9 ≠ t) (h10 : 10 ≠ t) :
      (messageOf ((l.resendBuilder m seq).filter (·.value ≠ []))).get t = v := by
    have hnodup : ((l.resendHeader m seq).map (·.tag)).Nodup := by
      simp [resendHeader]
    refine @get_messageOf _ (m.tags.filter keeps) hnodup ⟨t, v⟩ hf ?_ h8 h9 h10
    intro g hg htag
    have hg := of_mem_filter hg
    have hheader := resendHeader_keeps m seq _ hf
    rw [keeps, htag] at hg
    rw [keeps, hg] at hheader
    cases hheader
  refine ⟨hget 35 _ (by simp [resendHeader]) (by decide) (by decide) (by decide), ?_,
    hget 43 _ (by simp [resendHeader]) (by decide) (by decide) (by decide),
    hget 122 _ (by simp [resendHeader]) (by decide) (by decide) (by decide), ?_⟩
  · rw [Message.getInt, hget 34 (itoa seq) (by simp [resendHeader]) (by decide) (by decide) (by decide),
      atoi_itoa h0 hmax, getD_some]
  rw [resendBuilder_eq, filter_append, hnonempty, messageOf, filter_keeps, List.filter_filter]
  simp only [Bool.and_self]

/-- What is read of the frame has the fields that are kept only if none of them is empty. -/
theorem sendable_of_reads {seq : Int} {m sent} (happ : l.application seq = some m)
    (hsize : (l.frameOf (.message seq m)).length < 2 ^ 63) (hreads : Reads (l.frameOf (.message seq m)) sent)
    (hkept : sent.tags.filter keeps = m.tags.filter keeps) : Sendable m := by
  obtain ⟨hstored, -⟩ := filter_eq_some_iff.mp happ
  obtain ⟨-, hsoh⟩ := storedMessage_spec hstored
  have hlength : (((l.resendBuilder m seq).filter (·.value ≠ [])).flatMap Field.bytes).length
      ≤ (l.frameOf (.message seq m)).length := by
    rw [frameOf, resendFrame, build, wire_eq]
    simp only [length_append]
    omega
  have hflag : (⟨43, text "Y"⟩ : Field) ∈ (l.resendHeader m seq).filter (·.value ≠ []) :=
    mem_filter.mpr ⟨by simp [resendHeader], by decide +kernel⟩
  have hne : (l.resendBuilder m seq).filter (·.value ≠ []) ≠ [] := by
    rw [resendBuilder_eq, filter_append]
    exact append_ne_nil_of_left_ne_nil (ne_nil_of_mem hflag) _
  obtain ⟨size, hframe⟩ : ∃ n, (l.frameOf (.message seq m)).length = n := ⟨_, rfl⟩
  rw [hframe] at hlength hsize
  have hread := hreads { maxBodyLength := size } rfl hframe.le hsize
  rw [frameOf, resendFrame, build, ← append_nil (wire _), readMessage_wire_eq hne rfl hlength
    (Nat.lt_of_le_of_lt hlength hsize)] at hread
  cases hparse : parseFields (((l.resendBuilder m seq).filter (·.value ≠ [])).flatMap Field.bytes) with
  | none =>
    rw [hparse] at hread
    cases hread
  | some fs =>
    rw [hparse, elim_some] at hread
    split at hread
    · cases hread
    rename_i h35
    cases hread
    push Not at h35
    rw [resendBuilder_eq, filter_append, flatMap_append, parseFields] at hparse
    obtain ⟨_, back, rfl, hback⟩ := parseFieldsAux_append
      (fun f hf => resendHeader_plain hsoh seq f (mem_of_mem_filter hf)) hparse
    refine ⟨fun hempty => ?_, ?_⟩
    · -- the frame would begin with another field of the header
      obtain ⟨f, hf, htag⟩ := map_eq_some_iff.mp h35.1
      rw [head?_append_of_ne_nil _ (ne_nil_of_mem hflag)] at hf
      obtain ⟨hmem, hvalue⟩ := mem_filter.mp (mem_of_head? hf)
      simp only [resendHeader, mem_cons, not_mem_nil, or_false] at hmem
      rcases hmem with rfl | rfl | rfl | rfl | rfl | rfl | rfl <;> simp_all
    · -- the fields that were read are not longer than those that were sent
      rw [filter_keeps] at hkept
      have hle := ((filter_sublist (p := keeps) (l := back)).flatMap Field.bytes).length_le
      rw [hkept] at hle
      intro f hf hkeeps
      simpa using of_length_filter_bytes (hle.trans (of_parseFieldsAux hback).2) f (mem_filter.mpr ⟨hf, hkeeps⟩)

theorem Tiles.carries {first last : Int} {segments} (h : l.Tiles first last segments)
    (hsendable : ∀ n m, first ≤ n → n ≤ last → l.application n = some m → Sendable m) (h0 : 0 ≤ first)
    (hmax : last + 1 < 2 ^ 63) :
    ∃ sent : List Message, List.Forall₂ (fun segment m => Reads (l.frameOf segment) m ∧ Carries segment m) segments sent
      ∧ (first ≤ last + 1 → sent.foldl peer first = last + 1) := by
  induction h with
  | nil => exact ⟨[], .nil, fun hle => by rw [foldl_nil]; omega⟩
  | @message first _ _ _ hle happ _ ih =>
    obtain ⟨m', hreads, hcarries⟩ :=
      carries_message happ (hsendable _ _ (Int.le_refl first) hle happ) h0 (by omega)
    obtain ⟨sent, hsent, hpeer⟩ := ih (fun n m hn => hsendable n m (by omega)) (by omega) hmax
    refine ⟨m' :: sent, .cons ⟨hreads, hcarries⟩ hsent, fun _ => ?_⟩
    -- an application message is no GapFill
    have htype : ¬ (m'.msgType = text "4" ∧ m'.get 123 = text "Y") := by
      rintro ⟨htype, -⟩
      obtain ⟨-, hadmin⟩ := filter_eq_some_iff.mp happ
      rw [← hcarries.1, htype] at hadmin
      exact absurd hadmin (by decide +kernel)
    rw [foldl_cons, peer, if_pos hcarries.2.1, if_neg htype, hpeer (by omega)]
  | @gap _ _ _ _ hlt _ _ _ _ ih =>
    obtain ⟨m', hreads, hcarries⟩ := carries_gap (l := l) h0 hlt (by omega)
    obtain ⟨sent, hsent, hpeer⟩ := ih (fun n m hn => hsendable n m (by omega)) (by omega) hmax
    refine ⟨m' :: sent, .cons ⟨hreads, hcarries⟩ hsent, fun _ => ?_⟩
    rw [foldl_cons, peer, if_pos hcarries.2.1, if_pos ⟨hcarries.1, hcarries.2.2.2.1⟩, hcarries.2.2.2.2,
      hpeer (by omega)]

theorem Tiles.mem {first last : Int} {segments} (h : l.Tiles first last segments) {n : Int} {m}
    (hfirst : first ≤ n) (hlast : n ≤ last) (happ : l.application n = some m) : .message n m ∈ segments := by
  induction h with
  | nil => omega
  | @message first _ _ _ _ happ' _ ih =>
    by_cases hn : n = first
    · subst hn
      cases happ.symm.trans happ'
      exact mem_cons_self
    · exact mem_cons_of_mem _ (ih (by omega) hlast)
  | @gap _ _ next _ _ _ hnone _ _ ih =>
    by_cases hn : n < next
    · rw [hnone n hfirst hn] at happ
      cases happ
    · exact mem_cons_of_mem _ (ih (by omega) hlast)

/-- A ResendRequest is answered once and in order, by the application messages with their fields and one GapFill for
every run of other numbers, exactly if the messages that were asked for are sendable. -/
theorem resend_covers (hall : ∀ frame, l.accepts frame = true) {outSeqNum : Nat} (hout : outSeqNum < 2 ^ 63)
    (msg : Message) (hsize : ∀ frame ∈ l.handleResendRequest outSeqNum msg, frame.length < 2 ^ 63) :
    (∃ (segments : List Segment) (sent : List Message),
      l.handleResendRequest outSeqNum msg = segments.map l.frameOf
      ∧ l.Tiles (firstSeq (msg.getInt 7)) (lastSeq outSeqNum (msg.getInt 16)) segments
      ∧ List.Forall₂ (fun segment m => Reads (l.frameOf segment) m ∧ Carries segment m) segments sent
      ∧ (firstSeq (msg.getInt 7) ≤ lastSeq outSeqNum (msg.getInt 16) →
        sent.foldl peer (firstSeq (msg.getInt 7)) = lastSeq outSeqNum (msg.getInt 16) + 1))
    ↔ ∀ n m, firstSeq (msg.getInt 7) ≤ n → n ≤ lastSeq outSeqNum (msg.getInt 16) → l.application n = some m →
        Sendable m := by
  constructor
  · rintro ⟨segments, sent, hframes, htiles, hsent, -⟩ n m hfirst hlast happ
    have hmem := htiles.mem hfirst hlast happ
    obtain ⟨hlength, hget⟩ := forall₂_iff_get.mp hsent
    obtain ⟨i, hi⟩ := List.get_of_mem hmem
    obtain ⟨hreads, hcarries⟩ := hget i i.2 (hlength ▸ i.2)
    rw [hi] at hreads hcarries
    exact sendable_of_reads happ (hsize _ (by rw [hframes]; exact mem_map_of_mem hmem)) hreads hcarries.2.2.2.2
  intro hsendable
  have hfirst : 1 ≤ firstSeq (msg.getInt 7) := by
    rw [firstSeq]
    split <;> omega
  have hlast : lastSeq outSeqNum (msg.getInt 16) + 1 < 2 ^ 63 := by
    rw [lastSeq]
    split <;> omega
  obtain ⟨segments, hloop, htiles⟩ := resendLoop_tiles hall
    (lastSeq outSeqNum (msg.getInt 16) - firstSeq (msg.getInt 7) + 1).toNat hfirst (.inl rfl) []
  rw [if_pos rfl] at htiles
  by_cases hle : firstSeq (msg.getInt 7) ≤ lastSeq outSeqNum (msg.getInt 16) + 1
  · have hend : firstSeq (msg.getInt 7)
        + ((lastSeq outSeqNum (msg.getInt 16) - firstSeq (msg.getInt 7) + 1).toNat : Int) - 1
        = lastSeq outSeqNum (msg.getInt 16) := by omega
    rw [hend] at htiles
    obtain ⟨sent, hsent, hpeer⟩ := htiles.carries hsendable (by omega) hlast
    exact ⟨segments, sent, hloop, htiles, hsent, fun _ => hpeer hle⟩
  · -- nothing was asked for
    have hnone : (lastSeq outSeqNum (msg.getInt 16) - firstSeq (msg.getInt 7) + 1).toNat = 0 := by omega
    refine ⟨[], [], ?_, .nil (by omega), .nil, fun h => absurd h (by omega)⟩
    rw [handleResendRequest, hnone]
    rfl

def sample (store : Int → Option Bytes) : Link where
  senderCompID := text "BRIDGE"
  targetCompID := text "CLIENT"
  store := store
  sendingTime _ := text "20250101-00:00:01.000"
  origSendingTime _ := text "20250101-00:00:01.000"
  accepts _ := true
  sender_soh := by decide +kernel
  target_soh := by decide +kernel
  time_soh _ := by decide +kernel

def sampleBuilder (msgType : String) (seq : Int) : Builder :=
  newBuilder (text msgType) (text "BRIDGE") (text "CLIENT") seq (text "20250101-00:00:00.000") ++ [⟨37, text "O1"⟩]

def sampleRequest : Message := ⟨[⟨7, text "1"⟩, ⟨16, text "0"⟩]⟩

/-- A store with two application messages, an administrative one and a number that is no longer stored. -/
def sampleStore (seq : Int) : Option Bytes :=
  if seq = 1 then some (build (sampleBuilder "8" 1))
  else if seq = 2 then some (build (sampleBuilder "0" 2))
  else if seq = 4 then some (build (sampleBuilder "8" 4))
  else none

theorem resend_covers_sample :
    ∃ segments sent, (sample sampleStore).handleResendRequest 5 sampleRequest =
      segments.map (sample sampleStore).frameOf
      ∧ (sample sampleStore).Tiles 1 4 segments ∧ segments.length = 3 ∧ List.foldl peer 1 sent = 5 := by
  have hcovers := resend_covers (l := sample sampleStore) (fun _ => rfl) (show 5 < 2 ^ 63 by decide) sampleRequest
    (by decide +kernel)
  have hfirst : firstSeq (sampleRequest.getInt 7) = 1 := by decide +kernel
  have hlast : lastSeq 5 (sampleRequest.getInt 16) = 4 := by decide +kernel
  rw [hfirst, hlast] at hcovers
  have hsendable : ∀ n m, 1 ≤ n → n ≤ 4 → (sample sampleStore).application n = some m → Sendable m := by
    intro n m hn hle hm
    have hall : ((sample sampleStore).application n).all
        (fun m => m.msgType ≠ [] && m.tags.all fun f => ! keeps f || f.value ≠ []) = true := by
      obtain rfl | rfl | rfl | rfl : n = 1 ∨ n = 2 ∨ n = 3 ∨ n = 4 := by omega
      all_goals decide +kernel
    rw [hm, Option.all_some, Bool.and_eq_true, List.all_eq_true] at hall
    refine ⟨of_decide_eq_true hall.1, fun f hf hkeeps => ?_⟩
    simpa [hkeeps] using hall.2 f hf
  obtain ⟨segments, sent, hframes, htiles, -, hpeer⟩ := hcovers.mpr hsendable
  have hlength : ((sample sampleStore).handleResendRequest 5 sampleRequest).length = 3 := by decide +kernel
  rw [hframes, length_map] at hlength
  exact ⟨segments, sent, hframes, htiles, hlength, hpeer (by decide)⟩

/-- A report whose text contains SOH and ends with a field without a value. -/
def injected : Builder := sampleBuilder "8" 1 ++ [⟨58, text "a" ++ [soh] ++ text "58="⟩]

/-- The field without a value is stored and read back, but not sent again. -/
theorem resend_drops_field :
    ∃ (l : Link) (m sent : Message) (frame : Bytes), l.store 1 = some (build injected)
      ∧ injected.countP (·.tag = 35) = 1 ∧ l.application 1 = some m ∧ l.handleResendRequest 2 sampleRequest = [frame]
      ∧ readMessage {} frame = .ok (sent, []) ∧ sent.tags.filter keeps ≠ m.tags.filter keeps := by
  let l := sample fun seq => if seq = 1 then some (build injected) else none
  let frame := (l.handleResendRequest 2 sampleRequest).headD []
  exact ⟨l, (l.application 1).getD ⟨[]⟩, (readMessage {} frame).toOption.elim ⟨[]⟩ Prod.fst, frame, rfl, by decide,
    by decide +kernel, by decide +kernel, by decide +kernel, by decide +kernel⟩

end Link

end Fxp.Fix
