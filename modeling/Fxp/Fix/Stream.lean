import Mathlib
import Fxp.Fix.Codec

/-!
# Reading messages off a stream

A `Parser` of the source reads its messages one by one off a connection. After a garbled message it looks for the next
start of a message; what it has consumed by then stays consumed.
-/

namespace Fxp.Fix

open List

/-- What `ReadMessage` can return instead of a message; `closed` is the end of the stream inside of a message. -/
inductive ReadError
  | garbled
  | beginString (m : Message)
  | eof
  | closed
deriving DecidableEq

/-- A parser and what is left of its stream. -/
structure Reader where
  parser : Parser := {}
  stream : Bytes
  resync : Bool := false

namespace Reader

/-- What a read returns, and what it leaves of the stream. -/
abbrev Read (α : Type) := Except ReadError α × Bytes

def Read.andThen {α β : Type} (r : Read α) (f : α → Bytes → Read β) : Read β :=
  match r.1 with
  | .error err => (.error err, r.2)
  | .ok a => f a r.2

def nextField (stream : Bytes) : Read (Field × Bytes) :=
  match cut soh stream with
  | none => (.error (if stream = [] then .eof else .closed), [])
  | some (pair, rest) =>
    match parseTagValue pair with
    | none => (.error .garbled, rest)
    | some f => (.ok (f, pair ++ [soh]), rest)

def nextBytes (n : Nat) (stream : Bytes) : Read Bytes :=
  if stream.length < n then (.error .closed, []) else (.ok (stream.take n), stream.drop n)

/-- The field after the body: its errors are wrapped. -/
def checkSumField (stream : Bytes) : Read (Field × Bytes) :=
  match nextField stream with
  | (.error .eof, rest) => (.error .closed, rest)
  | r => r

def nextMessage (p : Parser) (stream : Bytes) : Read Message :=
  (nextField stream).andThen fun (first, rawBeginString) stream =>
    if first.tag ≠ 8 ∨ ¬ (text "FIX").isPrefixOf first.value then (.error .garbled, stream)
    else
      (nextField stream).andThen fun (second, rawBodyLength) stream =>
        if second.tag ≠ 9 ∨ ¬ isDigits second.value then (.error .garbled, stream)
        else
          match atoi second.value with
          | none => (.error .garbled, stream)
          | some bodyLength =>
            if bodyLength ≤ 0 ∨ p.maxBodyLength < bodyLength then (.error .garbled, stream)
            else
              (nextBytes bodyLength.toNat stream).andThen fun body stream =>
                if body.getLast? ≠ some soh then (.error .garbled, stream)
                else
                  match parseFields body with
                  | none => (.error .garbled, stream)
                  | some fields =>
                    if fields.head?.map (·.tag) ≠ some 35 ∨ fields.any (·.tag = 10) then (.error .garbled, stream)
                    else
                      (checkSumField stream).andThen fun (last, _) stream =>
                        if last.tag ≠ 10 ∨ last.value.length ≠ 3 ∨ ¬ last.value.all isDigit ∨
                            value last.value ≠ checksum (rawBeginString ++ rawBodyLength ++ body) then
                          (.error .garbled, stream)
                        else
                          let m : Message := { tags := first :: second :: fields ++ [last] }
                          if first.value ≠ p.beginString then (.error (.beginString m), stream) else (.ok m, stream)

/-- Drops bytes until the stream is at `8=FIX`; the end of the stream comes when less than five are left. -/
def skipToBeginString : Bytes → Read Unit
  | [] => (.error .eof, [])
  | b :: stream =>
    if (b :: stream).length < 5 then (.error .eof, b :: stream)
    else if (text "8=FIX").isPrefixOf (b :: stream) then (.ok (), b :: stream)
    else skipToBeginString stream

def readMessage (r : Reader) : Except ReadError Message × Reader :=
  let start : Read Unit := if r.resync then skipToBeginString r.stream else (.ok (), r.stream)
  match start with
  | (.error err, stream) => (.error err, { r with stream })
  | (.ok (), stream) =>
    let (result, stream) := nextMessage r.parser stream
    (result, { r with stream, resync := result matches .error .garbled })

/-- What the first `n` calls of `ReadMessage` return. -/
def calls : Nat → Reader → List (Except ReadError Message)
  | 0, _ => []
  | n + 1, r => r.readMessage.1 :: calls n r.readMessage.2

/-- What `Codec` returns for the error. -/
def parseError : ReadError → ParseError
  | .garbled => .garbled
  | .beginString m => .beginString m
  | .eof | .closed => .eof

private theorem readField_eq (stream : Bytes) : readField stream = match nextField stream with
    | (.error err, _) => .error (parseError err)
    | (.ok (f, raw), rest) => .ok (f, raw, rest) := by
  rw [readField, nextField]
  cases cut soh stream with
  | none =>
    simp only
    split <;> rfl
  | some split =>
    simp only
    cases parseTagValue split.1 <;> rfl

/-- `Codec.readMessage` reads the same messages, and leaves the same rest. -/
theorem readMessage_eq (p : Parser) (stream : Bytes) : Fix.readMessage p stream = match nextMessage p stream with
    | (.error err, _) => .error (parseError err)
    | (.ok m, rest) => .ok (m, rest) := by
  rw [Fix.readMessage, nextMessage, readField_eq]
  rcases nextField stream with ⟨_ | ⟨_, _⟩, stream₁⟩
  · rfl
  simp only [Read.andThen, Checked.ok_bind, readField_eq stream₁]
  split
  · rfl
  rcases nextField stream₁ with ⟨_ | ⟨second, _⟩, stream₂⟩
  · rfl
  simp only [Checked.ok_bind]
  split
  · rfl
  rcases atoi second.value with _ | n
  · rfl
  simp only [nextBytes]
  split
  · rfl
  split
  · rfl
  simp only [readField_eq, checkSumField]
  split
  · rfl
  rcases parseFields (stream₂.take n.toNat) with _ | _
  · rfl
  simp only
  split
  · rfl
  rcases nextField (stream₂.drop n.toNat) with ⟨err | ⟨_, _⟩, _⟩
  · cases err <;> rfl
  simp only [Checked.ok_bind]
  split
  · rfl
  split <;> rfl

private theorem nextMessage_ok_iff {p stream rest m} :
    nextMessage p stream = (.ok m, rest) ↔ Fix.readMessage p stream = .ok (m, rest) := by
  rw [readMessage_eq]
  rcases nextMessage p stream with ⟨_ | _, _⟩ <;> simp

private theorem readMessage_of_ok {r : Reader} (hsync : r.resync = false) {rest : Bytes} {m : Message}
    (h : Fix.readMessage r.parser r.stream = .ok (m, rest)) :
    r.readMessage = (.ok m, { r with stream := rest }) := by
  rw [readMessage, hsync]
  simp only [Bool.false_eq_true, if_false, nextMessage_ok_iff.mpr h]

private theorem readMessage_nil {r : Reader} (hsync : r.resync = false) (h : r.stream = []) :
    r.readMessage = (.error .eof, r) := by
  obtain ⟨_, _, _⟩ := r
  subst hsync h
  rfl

end Reader

/-- A builder that starts with its message type, and whose fields can be told apart on the wire. -/
structure Sendable (b : Builder) : Prop where
  msgType : ∃ value rest, value ≠ [] ∧ b = ⟨35, value⟩ :: rest
  tag : ∀ f ∈ b, ValidTag f.tag ∧ f.tag ≠ 10 ∧ lengthDataTags f.tag = none
  value : ∀ f ∈ b, soh ∉ f.value
  size : ((b.filter (·.value ≠ [])).flatMap Field.bytes).length ≤ 1048576

theorem Sendable.readMessage_build {b} (h : Sendable b) (rest : Bytes) :
    readMessage {} (build b ++ rest) = .ok (messageOf (b.filter (·.value ≠ [])), rest) := by
  have hframed : Framed (b.filter (·.value ≠ [])) := by
    apply Framed.of_plain
    intro f hf
    obtain ⟨⟨hpos, hlt⟩, -, hlength⟩ := h.tag f (mem_of_mem_filter hf)
    exact ⟨⟨hpos, hlt, hlength⟩, h.value f (mem_of_mem_filter hf)⟩
  have htype : (b.filter (·.value ≠ [])).head?.map (·.tag) = some 35 := by
    obtain ⟨_, _, hv, rfl⟩ := h.msgType
    rw [filter_cons_of_pos (by simpa using hv)]
    rfl
  have hsize := h.size
  refine readMessage_wire hframed htype ?_ rfl hsize (by omega) rest
  intro f hf
  exact (h.tag f (mem_of_mem_filter hf)).2.1

/-- The frames of a list of builders are read one by one, and then comes the end of the stream. -/
theorem calls_build {bs : List Builder} (h : ∀ b ∈ bs, Sendable b) :
    Reader.calls (bs.length + 1) { stream := bs.flatMap build } =
      bs.map (fun b => .ok (messageOf (b.filter (·.value ≠ [])))) ++ [.error .eof] := by
  induction bs with
  | nil =>
    rw [Reader.calls, Reader.readMessage_nil rfl rfl]
    rfl
  | cons b bs ih =>
    have hread := (h b mem_cons_self).readMessage_build (bs.flatMap build)
    have hcall := Reader.readMessage_of_ok (r := { stream := (b :: bs).flatMap build }) rfl hread
    rw [length_cons, Reader.calls, hcall, map_cons, cons_append]
    congr 1
    apply ih
    intro b' hb'
    exact h b' (mem_cons_of_mem _ hb')

/-- What a builder writes, a fresh parser reads back, and of a list of frames it reads these messages one by one, and
then the end of the stream. -/
theorem codec_round_trip :
    (∀ b : Builder, Sendable b → ∃ m : Message,
      ({ stream := build b } : Reader).readMessage = (.ok m, { stream := [] }) ∧
      m.tags = [⟨8, text "FIX.4.4"⟩, ⟨9, decimal ((b.filter (·.value ≠ [])).flatMap Field.bytes).length⟩] ++
        b.filter (·.value ≠ []) ++ [checksumField (b.filter (·.value ≠ []))]) ∧
    ∀ bs : List Builder, (∀ b ∈ bs, Sendable b) →
      Reader.calls (bs.length + 1) { stream := bs.flatMap build } =
        bs.map (fun b => .ok (messageOf (b.filter (·.value ≠ [])))) ++ [.error .eof] := by
  refine ⟨fun b hb => ?_, fun bs hbs => calls_build hbs⟩
  have hread := hb.readMessage_build []
  rw [append_nil] at hread
  exact ⟨_, Reader.readMessage_of_ok (r := { stream := build b }) rfl hread, rfl⟩

def heartbeatSample : Builder := [⟨35, text "0"⟩, ⟨49, text "BRIDGE"⟩, ⟨112, []⟩, ⟨34, text "7"⟩]

theorem codec_round_trip_heartbeats : Sendable heartbeatSample ∧
    (∃ m, ({ stream := build heartbeatSample } : Reader).readMessage = (.ok m, { stream := [] })) ∧
    Reader.calls 3 { stream := [heartbeatSample, heartbeatSample].flatMap build } =
      [.ok (messageOf [⟨35, text "0"⟩, ⟨49, text "BRIDGE"⟩, ⟨34, text "7"⟩]),
        .ok (messageOf [⟨35, text "0"⟩, ⟨49, text "BRIDGE"⟩, ⟨34, text "7"⟩]), .error .eof] := by
  have hsend : Sendable heartbeatSample := by
    refine ⟨⟨text "0", _, by decide +kernel, rfl⟩, ?_, by decide +kernel, by decide +kernel⟩
    simp [heartbeatSample, ValidTag, lengthDataTags]
  obtain ⟨m, hm, -⟩ := codec_round_trip.1 heartbeatSample hsend
  refine ⟨hsend, ⟨m, hm⟩, ?_⟩
  have hcalls := codec_round_trip.2 [heartbeatSample, heartbeatSample] (by simpa using hsend)
  have hfilter : heartbeatSample.filter (·.value ≠ []) = [⟨35, text "0"⟩, ⟨49, text "BRIDGE"⟩, ⟨34, text "7"⟩] := by
    decide +kernel
  simp only [map_cons, map_nil, hfilter] at hcalls
  exact hcalls

namespace Reader

/-- The bytes that `ReadString` returns: up to the delimiter, or all there are. -/
def fieldSpan (stream : Bytes) : Nat := (cut soh stream).elim stream.length fun (pair, _) => pair.length + 1

/-- The sizes of the fields that a message at the start of the stream has outside of its body, as far as they are
read. -/
def headerSpans (p : Parser) (stream : Bytes) : List Nat :=
  fieldSpan stream :: match nextField stream with
    | (.error _, _) => []
    | (.ok (first, _), stream) =>
      if first.tag ≠ 8 ∨ ¬ (text "FIX").isPrefixOf first.value then []
      else
        fieldSpan stream :: match nextField stream with
          | (.error _, _) => []
          | (.ok (second, _), stream) =>
            if second.tag ≠ 9 ∨ ¬ isDigits second.value then []
            else
              match atoi second.value with
              | none => []
              | some bodyLength =>
                if bodyLength ≤ 0 ∨ p.maxBodyLength < bodyLength then []
                else
                  match nextBytes bodyLength.toNat stream with
                  | (.error _, _) => []
                  | (.ok body, stream) =>
                    if body.getLast? ≠ some soh then []
                    else
                      match parseFields body with
                      | none => []
                      | some fields =>
                        if fields.head?.map (·.tag) ≠ some 35 ∨ fields.any (·.tag = 10) then [] else [fieldSpan stream]

/-- The stream at the message that a call of `ReadMessage` reads; what it skips before, it drops byte by byte. -/
def atMessage (r : Reader) : Option Bytes :=
  match (if r.resync then skipToBeginString r.stream else (.ok (), r.stream) : Read Unit) with
  | (.error _, _) => none
  | (.ok (), stream) => some stream

/-- The bytes that a call of `ReadMessage` has taken off the stream and keeps when it returns. -/
def kept (r : Reader) : Nat := r.atMessage.elim 0 fun stream => stream.length - (nextMessage r.parser stream).2.length

private theorem nextField_length (stream : Bytes) : stream.length = fieldSpan stream + (nextField stream).2.length := by
  rw [nextField, fieldSpan]
  rcases hcut : cut soh stream with _ | split
  · simp
  have hlength : stream.length = split.1.length + 1 + split.2.length := by
    rw [(of_cut hcut).1, length_append, length_cons]
    omega
  simp only [Option.elim_some]
  split <;> exact hlength

private theorem nextBytes_length (n : Nat) (stream : Bytes) :
    (nextBytes n stream).2.length ≤ stream.length ∧ stream.length ≤ (nextBytes n stream).2.length + n := by
  unfold nextBytes
  split
  · exact ⟨Nat.zero_le _, by simp; omega⟩
  · exact ⟨by simp, by simp; omega⟩

private theorem checkSumField_rest (stream : Bytes) : (checkSumField stream).2 = (nextField stream).2 := by
  unfold checkSumField
  split
  · rename_i h
    rw [h]
  · rfl

/-- A call takes the fields outside of the body and at most one body off the stream. -/
theorem nextMessage_length (p : Parser) (stream : Bytes) : (headerSpans p stream).length ≤ 3 ∧ ∃ body ≤ p.maxBodyLength,
    stream.length = (headerSpans p stream).sum + body + (nextMessage p stream).2.length := by
  have hfirst := nextField_length stream
  rw [headerSpans, nextMessage]
  generalize nextField stream = read₁ at hfirst ⊢
  obtain ⟨_ | ⟨_, _⟩, stream₁⟩ := read₁
  · exact ⟨by simp, 0, Nat.zero_le _, by simpa [Read.andThen] using hfirst⟩
  simp only [Read.andThen]
  split
  · exact ⟨by simp, 0, Nat.zero_le _, by simpa using hfirst⟩
  have hsecond := nextField_length stream₁
  generalize nextField stream₁ = read₂ at hsecond ⊢
  obtain ⟨_ | ⟨_, _⟩, stream₂⟩ := read₂
  · exact ⟨by simp, 0, Nat.zero_le _, by simp at hfirst hsecond ⊢; omega⟩
  simp only at hfirst hsecond ⊢
  split
  · exact ⟨by simp, 0, Nat.zero_le _, by simp; omega⟩
  split
  · exact ⟨by simp, 0, Nat.zero_le _, by simp; omega⟩
  rename_i n _
  split
  · exact ⟨by simp, 0, Nat.zero_le _, by simp; omega⟩
  have hbody := nextBytes_length n.toNat stream₂
  generalize nextBytes n.toNat stream₂ = read₃ at hbody ⊢
  obtain ⟨_ | _, stream₃⟩ := read₃
  · exact ⟨by simp, stream₂.length - stream₃.length, by simp at hbody; omega, by simp at hbody ⊢; omega⟩
  simp only at hbody ⊢
  split
  · exact ⟨by simp, stream₂.length - stream₃.length, by omega, by simp; omega⟩
  split
  · exact ⟨by simp, stream₂.length - stream₃.length, by omega, by simp; omega⟩
  split
  · exact ⟨by simp, stream₂.length - stream₃.length, by omega, by simp; omega⟩
  refine ⟨by simp, stream₂.length - stream₃.length, by omega, ?_⟩
  have hlast := nextField_length stream₃
  rw [← checkSumField_rest] at hlast
  simp only [sum_cons, sum_nil]
  split
  · simp only
    omega
  split
  · simp only
    omega
  split <;> simp only <;> omega

/-- The calls on a set of streams keep no more than a body and a constant, exactly if the fields outside of the bodies
are bounded. -/
theorem kept_bounded_iff (p : Parser) (resync : Bool) (streams : Set Bytes) :
    (∃ C, ∀ s ∈ streams, ({ parser := p, stream := s, resync } : Reader).kept ≤ p.maxBodyLength + C) ↔
      ∃ K, ∀ s ∈ streams, ∀ stream ∈ ({ parser := p, stream := s, resync } : Reader).atMessage,
        ∀ n ∈ headerSpans p stream, n ≤ K := by
  constructor
  · rintro ⟨C, hC⟩
    refine ⟨p.maxBodyLength + C, fun s hs stream hstream n hn => Nat.le_trans ?_ (hC s hs)⟩
    obtain ⟨-, _, -, _⟩ := nextMessage_length p stream
    have hsum := single_le_sum (fun _ _ => Nat.zero_le _) n hn
    rw [kept, Option.mem_def.mp hstream, Option.elim_some]
    show n ≤ stream.length - (nextMessage p stream).2.length
    omega
  · rintro ⟨K, hK⟩
    refine ⟨3 * K, fun s hs => ?_⟩
    rw [kept]
    rcases hat : ({ parser := p, stream := s, resync } : Reader).atMessage with _ | stream
    · exact Nat.zero_le _
    obtain ⟨hthree, _, _, _⟩ := nextMessage_length p stream
    have hsum := sum_le_card_nsmul _ K (hK s hs stream hat)
    have hcard : (headerSpans p stream).length * K ≤ 3 * K := Nat.mul_le_mul_right K hthree
    rw [nsmul_eq_mul, Nat.cast_id] at hsum
    show stream.length - (nextMessage p stream).2.length ≤ _
    omega

/-- Bytes without a delimiter are all kept. -/
theorem kept_replicate (n : Nat) : ({ stream := List.replicate n 56 } : Reader).kept = n := by
  have hcut : cut soh (List.replicate n 56) = none := by
    induction n with
    | zero => rfl
    | succ _ ih =>
      rw [replicate_succ, cut, if_neg (by decide), ih]
      rfl
  simp only [kept, atMessage, Bool.false_eq_true, if_false, Option.elim_some, nextMessage, nextField,
    hcut, Read.andThen,
    length_replicate, length_nil, Nat.sub_zero]

/-- No constant bounds what a call keeps beyond a body. -/
theorem kept_unbounded : ¬ ∃ C, ∀ s : Bytes, ({ stream := s } : Reader).kept ≤ 1048576 + C := by
  rintro ⟨C, hC⟩
  have hkept := hC (List.replicate (1048577 + C) 56)
  rw [kept_replicate] at hkept
  omega

/-- The body of a frame that a parser for its version accepts. -/
structure Readable (p : Parser) (fields : List Field) : Prop where
  version : p.beginString = text "FIX.4.4"
  framed : Framed fields
  msgType : fields.head?.map (·.tag) = some 35
  checkSum : ∀ f ∈ fields, f.tag ≠ 10
  size : (fields.flatMap Field.bytes).length ≤ p.maxBodyLength
  fits : p.maxBodyLength < 2 ^ 63

/-- A frame after its first field. -/
def afterBegin (fields : List Field) : Bytes :=
  (lengthField fields).bytes ++ (fields.flatMap Field.bytes ++ (checksumField fields).bytes)

variable {p : Parser} {fields : List Field} {G F front rest : Bytes}

private theorem wire_begin (fields : List Field) : wire fields = text "8=FIX.4.4" ++ soh :: afterBegin fields := by
  rw [wire_eq, show beginField.bytes = text "8=FIX.4.4" ++ [soh] by decide +kernel, append_assoc, singleton_append]
  rfl

theorem Readable.read (h : Readable p fields) : Fix.readMessage p (wire fields) = .ok (messageOf fields, []) := by
  have := readMessage_wire h.framed h.msgType h.checkSum h.version h.size (Nat.lt_of_le_of_lt h.size h.fits) []
  rwa [append_nil] at this

/-- A stream that does not start with `8=FIX` loses all of its first field. -/
theorem nextMessage_garbled (hsoh : soh ∉ front) (hstart : ¬ (text "8=FIX").isPrefixOf (front ++ soh :: rest)) :
    nextMessage p (front ++ soh :: rest) = (.error .garbled, rest) := by
  rw [nextMessage, nextField, cut_append hsoh]
  simp only
  rcases hpair : parseTagValue front with _ | _
  · rfl
  simp only [Read.andThen]
  refine if_pos ?_
  by_contra hfix
  push Not at hfix
  rw [List.isPrefixOf_iff_prefix] at hfix
  obtain ⟨h8, value, hvalue⟩ := hfix
  obtain ⟨-, _, rfl, -, htag⟩ := of_parseTagValue hpair
  apply hstart
  rw [htag (by omega), h8, ← hvalue, List.isPrefixOf_iff_prefix]
  exact ⟨value ++ soh :: rest, by simp [show text "8=FIX" = [digit 8, eqSign] ++ text "FIX" by decide +kernel]⟩

private theorem skipToBeginString_append (hF : (text "8=FIX").isPrefixOf F)
    (hfirst : ∀ i < G.length, ¬ (text "8=FIX").isPrefixOf ((G ++ F).drop i)) :
    skipToBeginString (G ++ F) = (.ok (), F) := by
  have hfive : 5 ≤ F.length :=
    Nat.le_trans (show 5 ≤ (text "8=FIX").length by decide +kernel) (List.isPrefixOf_iff_prefix.mp hF).length_le
  induction G with
  | nil =>
    cases F with
    | nil => cases hfive
    | cons => rw [nil_append, skipToBeginString, if_neg (by omega), if_pos hF]
  | cons b G ih =>
    have h0 : ¬ (text "8=FIX").isPrefixOf (b :: (G ++ F)) := hfirst 0 (by simp)
    rw [cons_append, skipToBeginString, if_neg (by simp; omega), if_neg h0]
    apply ih
    intro i hi
    exact hfirst (i + 1) (by simpa using hi)

private theorem skipToBeginString_length (s : Bytes) : (skipToBeginString s).2.length ≤ s.length := by
  induction s with
  | nil => exact Nat.le_refl _
  | cons _ _ ih =>
    rw [skipToBeginString]
    split
    · exact Nat.le_refl _
    split
    · exact Nat.le_refl _
    · exact Nat.le_succ_of_le ih

/-- What follows the first field of a frame is too short for its message. -/
theorem readMessage_short (h : Readable p fields) {r : Reader} (hr : r.stream.length ≤ (afterBegin fields).length) :
    r.readMessage.1 ≠ .ok (messageOf fields) ∧ r.readMessage.2.stream.length ≤ r.stream.length := by
  have hshort (s : Bytes) (hs : s.length ≤ r.stream.length) : (nextMessage r.parser s).1 ≠ .ok (messageOf fields) := by
    intro hok
    obtain ⟨_, _, _, _, _, htags, -, -, -, -, -, hn, hlength⟩ :=
      of_readMessage (nextMessage_ok_iff.mp (Prod.ext hok rfl))
    simp only [messageOf, cons_append, cons.injEq] at htags
    obtain ⟨rfl, rfl, -⟩ := htags
    rw [lengthField, atoi_decimal (Nat.lt_of_le_of_lt h.size h.fits)] at hn
    cases hn
    rw [Int.toNat_natCast] at hlength
    simp [afterBegin, Field.bytes, lengthField, checksumField, threeDigits, beginField,
      show (decimal 9).length = 1 from rfl, show (decimal 10).length = 2 from rfl,
      show (text "FIX.4.4").length = 7 by decide +kernel] at hr hlength
    omega
  have hrest (s : Bytes) : (nextMessage r.parser s).2.length ≤ s.length := by
    obtain ⟨-, _, -, _⟩ := nextMessage_length r.parser s
    omega
  have hskip := skipToBeginString_length r.stream
  rw [readMessage]
  rcases r.resync with _ | _
  · exact ⟨hshort _ (Nat.le_refl _), hrest _⟩
  generalize skipToBeginString r.stream = start at hskip ⊢
  obtain ⟨_ | _, s⟩ := start
  · exact ⟨(fun h => by cases h), hskip⟩
  · exact ⟨hshort s hskip, Nat.le_trans (hrest s) hskip⟩

private theorem not_mem_calls (h : Readable p fields) (n : Nat) {r : Reader}
    (hr : r.stream.length ≤ (afterBegin fields).length) : .ok (messageOf fields) ∉ r.calls n := by
  induction n generalizing r with
  | zero => exact not_mem_nil
  | succ _ ih =>
    obtain ⟨hne, hle⟩ := readMessage_short h hr
    rw [calls, mem_cons, not_or]
    exact ⟨Ne.symm hne, ih (Nat.le_trans hle hr)⟩

/-- The first field of a stream that does not start with `8=FIX` takes the start of the frame with it if no delimiter
stands before. -/
theorem frame_lost (h : Readable p fields) (hne : G ≠ []) (hsoh : soh ∉ G)
    (hfirst : ∀ i < G.length, ¬ (text "8=FIX").isPrefixOf ((G ++ wire fields).drop i)) (n : Nat) :
    .ok (messageOf fields) ∉ ({ parser := p, stream := G ++ wire fields } : Reader).calls n := by
  rcases n with _ | n
  · exact not_mem_nil
  have h0 := hfirst 0 (length_pos_of_ne_nil hne)
  rw [drop_zero, wire_begin, ← append_assoc] at h0
  have hsoh' : soh ∉ G ++ text "8=FIX.4.4" := by
    rw [mem_append, not_or]
    exact ⟨hsoh, by decide +kernel⟩
  rw [calls, readMessage, wire_begin, ← append_assoc]
  simp only [Bool.false_eq_true, if_false, nextMessage_garbled hsoh' h0, mem_cons, reduceCtorEq, false_or]
  exact not_mem_calls h n (Nat.le_refl _)

/-- Calls on a frame after other bytes come to its message, with errors only for garbled ones before, exactly if there
are no such bytes or one of them is a delimiter. -/
theorem resync_iff {b : Builder} (h : Readable p (b.filter (·.value ≠ [])))
    (hfirst : ∀ i < G.length, ¬ (text "8=FIX").isPrefixOf ((G ++ build b).drop i)) :
    (∃ n, ({ parser := p, stream := G ++ build b } : Reader).calls (n + 1) =
      List.replicate n (.error .garbled) ++ [.ok (messageOf (b.filter (·.value ≠ [])))]) ↔ G = [] ∨ soh ∈ G := by
  constructor
  · rintro ⟨n, hn⟩
    by_contra hG
    rw [not_or] at hG
    apply frame_lost h hG.1 hG.2 hfirst (n + 1)
    rw [← build, hn]
    simp
  · rintro (rfl | hsoh)
    · exact ⟨0, by rw [calls, readMessage_of_ok rfl h.read]; rfl⟩
    obtain ⟨front, G', rfl, hfront⟩ := eq_append_cons_of_mem hsoh
    have hskip : skipToBeginString (G' ++ build b) = (.ok (), build b) := by
      apply skipToBeginString_append
      · rw [build, wire_begin, show text "8=FIX.4.4" = text "8=FIX" ++ text ".4.4" by decide +kernel, append_assoc]
        exact List.isPrefixOf_iff_prefix.mpr (prefix_append _ _)
      intro i hi
      have hi' := hfirst ((front ++ [soh]).length + i) (by simp; omega)
      rwa [show front ++ soh :: G' ++ build b = front ++ [soh] ++ (G' ++ build b) by simp, ← drop_drop,
        drop_left] at hi'
    have hread : nextMessage p (build b) = _ := nextMessage_ok_iff.mpr h.read
    have h0 := hfirst 0 (by simp)
    rw [drop_zero, append_assoc, cons_append] at h0
    refine ⟨1, ?_⟩
    rw [calls, calls, readMessage, append_assoc, cons_append]
    simp only [Bool.false_eq_true, if_false, nextMessage_garbled hfront h0]
    rw [readMessage]
    simp only [if_true, hskip, hread]
    rfl

private theorem readable_heartbeat : Readable {} (heartbeatSample.filter (·.value ≠ [])) := by
  refine ⟨rfl, ?_, by decide +kernel, by decide +kernel, by decide +kernel, by decide⟩
  apply Framed.of_plain
  unfold Plain
  decide +kernel

theorem resync_iff_heartbeat : ∃ n, ({ stream := [88, soh] ++ build heartbeatSample } : Reader).calls (n + 1) =
    List.replicate n (.error .garbled) ++ [.ok (messageOf (heartbeatSample.filter (·.value ≠ [])))] := by
  refine (resync_iff readable_heartbeat ?_).mpr (.inr (by decide))
  decide +kernel

/-- A single letter before a frame, and the frame is lost. -/
theorem heartbeat_lost : Readable {} (heartbeatSample.filter (·.value ≠ [])) ∧
    (∀ i < 1, ¬ (text "8=FIX").isPrefixOf (([88] ++ build heartbeatSample).drop i)) ∧
    ¬ ∃ n, .ok (messageOf (heartbeatSample.filter (·.value ≠ []))) ∈
      ({ stream := [88] ++ build heartbeatSample } : Reader).calls n := by
  have hfirst : ∀ i < 1, ¬ (text "8=FIX").isPrefixOf (([88] ++ build heartbeatSample).drop i) := by decide +kernel
  refine ⟨readable_heartbeat, hfirst, ?_⟩
  rintro ⟨n, hn⟩
  exact frame_lost readable_heartbeat (cons_ne_nil 88 []) (by decide) hfirst n hn

end Reader

end Fxp.Fix
