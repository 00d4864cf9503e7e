import Fxp.Fix.FileStore

/-!
# Records and numbers in the files of a store

A log is the encodings of its records one after the other, and behind them at most a torn record.  Reading it finds
exactly the records: `scanLog_records`.  The frame of the last record with a number is what the index leads to:
`recovered_index`.
-/

namespace Fxp.Fix

open Durable List

/-- A record as it stands in the log: the number is a 64-bit integer, and the frame is not too long. -/
structure Storable (r : Int × Bytes) : Prop where
  lower : -2 ^ 63 ≤ r.1
  upper : r.1 < 2 ^ 63
  length : r.2.length ≤ maxRecordLen

@[simp] theorem putUint64_length (n : Int) : (putUint64 n).length = 8 := rfl

private theorem fromBeBytes_putUint64 {n : Int} (hlower : -2 ^ 63 ≤ n) (hupper : n < 2 ^ 63) :
    (fromBeBytes (putUint64 n) : Int).bmod (2 ^ 64) = n := by
  have hvalue : fromBeBytes (putUint64 n) = (n % 2 ^ 64).toNat := by
    have hlt : (n % 2 ^ 64).toNat < 2 ^ 64 := by omega
    simp only [putUint64, fromBeBytes, toBeBytes, cons_append, nil_append, foldl_cons, foldl_nil,
      UInt8.toNat_ofNat']
    omega
  rw [hvalue, Int.toNat_of_nonneg (by omega), Int.bmod]
  omega

private theorem encodeRecord_length (seq : Int) (frame : Bytes) :
    (encodeRecord seq frame).length = recordHeaderLen + frame.length := by
  simp only [encodeRecord, length_append, toBeBytes_length, putUint64_length, recordHeaderLen]

private theorem encodeRecord_append (seq : Int) (frame rest : Bytes) :
    encodeRecord seq frame ++ rest = toBeBytes frame.length ++
    (toBeBytes (recordCRC (putUint64 seq) frame).toNat ++ (putUint64 seq ++ (frame ++ rest))) := by
  simp only [encodeRecord, append_assoc]

private theorem recoverStep_record {seq : Int} {frame} (h : Storable (seq, frame)) (rest : Bytes) (r : Recovered) :
    recoverStep (encodeRecord seq frame ++ rest, r) = some (rest, r.add seq frame.length) := by
  have hmax : maxRecordLen < 2 ^ 32 := by decide
  have hlength := h.length
  have hn : fromBeBytes ((encodeRecord seq frame ++ rest).take 4) = frame.length := by
    rw [encodeRecord_append, take_left' (toBeBytes_length _)]
    exact fromBeBytes_toBeBytes (by simp only at hlength; omega)
  have hcrc : ((encodeRecord seq frame ++ rest).drop 4).take 4 = toBeBytes (recordCRC (putUint64 seq) frame).toNat := by
    rw [encodeRecord_append, drop_left' (toBeBytes_length _), take_left' (toBeBytes_length _)]
  have hseq : ((encodeRecord seq frame ++ rest).drop 8).take 8 = putUint64 seq := by
    rw [encodeRecord_append, ← append_assoc, drop_left' (by simp), take_left' (putUint64_length _)]
  have hframe : (encodeRecord seq frame ++ rest).drop recordHeaderLen = frame ++ rest := by
    rw [encodeRecord_append, ← append_assoc, ← append_assoc, drop_left' (by simp [recordHeaderLen])]
  have hrest : (encodeRecord seq frame ++ rest).drop (recordHeaderLen + frame.length) = rest :=
    drop_left' (encodeRecord_length seq frame)
  have hlong : ¬ (encodeRecord seq frame ++ rest).length < recordHeaderLen := by
    rw [length_append, encodeRecord_length]
    omega
  simp only [recoverStep, if_neg hlong, hn, hframe, hcrc, hseq, hrest]
  rw [if_neg (by simp only at hlength; omega), take_left, if_neg (Nat.lt_irrefl _),
    fromBeBytes_toBeBytes (UInt32.toNat_lt _), if_neg (fun h => h rfl), fromBeBytes_putUint64 h.lower h.upper]

/-- A record that is not there completely is not read. -/
theorem recoverStep_torn {seq : Int} {frame torn : Bytes} (h : Storable (seq, frame))
    (htorn : torn <+: encodeRecord seq frame)
    (hlt : torn.length < (encodeRecord seq frame).length) (r : Recovered) : recoverStep (torn, r) = none := by
  rw [recoverStep]
  split
  · rfl
  rename_i hlong
  have hmax : maxRecordLen < 2 ^ 32 := by decide
  have hlength := h.length
  have hn : fromBeBytes (torn.take 4) = frame.length := by
    have htake : torn.take 4 = toBeBytes frame.length := by
      obtain ⟨_, hrest⟩ := htorn
      have := congrArg (List.take 4) hrest
      rw [take_append_of_le_length (by simp only [recordHeaderLen] at hlong; omega), encodeRecord, append_assoc,
        append_assoc, take_left' (toBeBytes_length _)] at this
      exact this
    rw [htake]
    exact fromBeBytes_toBeBytes (by simp only at hlength; omega)
  rw [encodeRecord_length] at hlt
  simp only [hn]
  rw [if_neg (by simp only at hlength; omega), if_pos]
  rw [length_take, length_drop]
  omega

variable (recs : List (Int × Bytes))

def encodeLog : Bytes := recs.flatMap fun r => encodeRecord r.1 r.2

@[simp] theorem encodeLog_nil : encodeLog [] = [] := rfl

@[simp] theorem encodeLog_cons (r : Int × Bytes) (recs : List (Int × Bytes)) :
    encodeLog (r :: recs) = encodeRecord r.1 r.2 ++ encodeLog recs := rfl

theorem encodeLog_concat (r : Int × Bytes) :
    encodeLog (recs ++ [r]) = encodeLog recs ++ encodeRecord r.1 r.2 := by
  simp [encodeLog]

def recovered : Recovered := recs.foldl (fun r rec => r.add rec.1 rec.2.length) {}

theorem recovered_concat (r : Int × Bytes) :
    recovered (recs ++ [r]) = (recovered recs).add r.1 r.2.length := by
  simp [recovered]

/-- Nothing, or a record that is not there completely. -/
def TornRecord (torn : Bytes) : Prop :=
  torn = [] ∨ ∃ r : Int × Bytes, Storable r ∧ torn <+: encodeRecord r.1 r.2 ∧
    torn.length < (encodeRecord r.1 r.2).length

private theorem recoverStep_end {torn} (h : TornRecord torn) (r : Recovered) : recoverStep (torn, r) = none := by
  rcases h with rfl | ⟨_, hrec, htorn, hlt⟩
  · rfl
  · exact recoverStep_torn hrec htorn hlt r

private theorem run_recoverStep {recs} (h : ∀ r ∈ recs, Storable r) {torn} (htorn : TornRecord torn)
    {fuel : Nat} (hfuel : recs.length < fuel) (r : Recovered) :
    Loop.run recoverStep fuel (encodeLog recs ++ torn, r) =
    (torn, recs.foldl (fun r rec => r.add rec.1 rec.2.length) r) := by
  induction recs generalizing fuel r with
  | nil =>
    obtain ⟨_, rfl⟩ := Nat.exists_eq_add_of_lt hfuel
    rw [encodeLog_nil, nil_append, Loop.run, recoverStep_end htorn]
    rfl
  | cons rec _ ih =>
    cases fuel with
    | zero => exact absurd hfuel (Nat.not_lt_zero _)
    | succ =>
      rw [encodeLog_cons, append_assoc, Loop.run, recoverStep_record (h rec mem_cons_self)]
      exact ih (fun r hr => h r (mem_cons_of_mem _ hr)) (Nat.succ_lt_succ_iff.mp hfuel) _

private theorem length_le_encodeLog : recs.length ≤ (encodeLog recs).length := by
  induction recs with
  | nil => exact Nat.le_refl _
  | cons =>
    rw [encodeLog_cons, length_append, encodeRecord_length, length_cons, recordHeaderLen]
    omega

theorem scanLog_records {recs} (h : ∀ r ∈ recs, Storable r) {torn} (htorn : TornRecord torn) :
    scanLog (encodeLog recs ++ torn) = recovered recs := by
  have hfuel : recs.length < (encodeLog recs ++ torn).length + 1 := by
    have := length_le_encodeLog recs
    rw [length_append]
    omega
  rw [scanLog, run_recoverStep h htorn hfuel]
  rfl

theorem recovered_off : (recovered recs).off = (encodeLog recs).length := by
  induction recs using List.reverseRecOn with
  | nil => rfl
  | append_singleton _ _ ih =>
    rw [recovered_concat, encodeLog_concat, length_append, encodeRecord_length, Recovered.add, ih]

theorem recovered_maxSeq : (recovered recs).maxSeq = (recs.map Prod.fst).foldl max 0 := by
  induction recs using List.reverseRecOn with
  | nil => rfl
  | append_singleton _ _ ih =>
    rw [recovered_concat, map_append, foldl_append, Recovered.add, ih]
    rfl

/-- The frame of the last record with the number. -/
def frameOf? (seq : Int) : Option Bytes := (recs.reverse.find? (·.1 = seq)).map Prod.snd

theorem frameOf?_concat (r : Int × Bytes) (seq : Int) :
    frameOf? (recs ++ [r]) seq = if r.1 = seq then some r.2 else frameOf? recs seq := by
  simp only [frameOf?, reverse_append, reverse_singleton, singleton_append, find?_cons]
  by_cases h : r.1 = seq <;> simp [h]

theorem mem_of_frameOf? {recs} {seq : Int} {frame} (h : frameOf? recs seq = some frame) :
    (seq, frame) ∈ recs := by
  obtain ⟨_, hr, rfl⟩ := Option.map_eq_some_iff.mp h
  have hseq := find?_some hr
  rw [decide_eq_true_eq] at hseq
  rw [← hseq]
  exact mem_reverse.mp (mem_of_find?_eq_some hr)

theorem recovered_index (seq : Int) (behind : Bytes) :
    match (recovered recs).index[seq]? with
    | none => frameOf? recs seq = none
    | some loc => ∃ frame, frameOf? recs seq = some frame ∧ frame.length = loc.n ∧
        ((encodeLog recs ++ behind).drop loc.off).take loc.n = frame := by
  induction recs using List.reverseRecOn generalizing behind with
  | nil => rfl
  | append_singleton _ r ih =>
    rw [recovered_concat, Recovered.add, Maps.getElem?_insert, frameOf?_concat]
    by_cases hseq : r.1 = seq
    · simp only [if_pos hseq]
      refine ⟨r.2, rfl, rfl, ?_⟩
      rw [recovered_off, encodeLog_concat, append_assoc, ← drop_drop, drop_left, encodeRecord,
        append_assoc _ r.2, drop_left' (by simp [recordHeaderLen]), take_left]
    · simp only [if_neg hseq]
      rw [encodeLog_concat, append_assoc]
      exact ih _

def IsInt (n : Int) : Prop := -2 ^ 63 ≤ n ∧ n < 2 ^ 63

theorem IsInt.atoi {n : Int} (h : IsInt n) : Fix.atoi (itoa n) = some n := by
  by_cases hn : n < 0
  · have hsign : sign (45 :: decimal n.natAbs) = (true, decimal n.natAbs) := rfl
    have habs : -((n.natAbs : Nat) : Int) = n := by omega
    rw [itoa, if_pos hn, Fix.atoi, hsign]
    simp only [value_decimal, if_true, habs]
    rw [if_pos ⟨isDigits_decimal _, h⟩]
  · exact atoi_itoa (by omega) h.2

private theorem head?_itoa (n : Int) : ∃ b rest, itoa n = b :: rest ∧ (b = 45 ∨ isDigit b = true) := by
  obtain ⟨b, rest, hdecimal⟩ := exists_cons_of_ne_nil (show decimal n.natAbs ≠ [] from decimalAux_ne_nil _ _)
  by_cases hn : n < 0
  · exact ⟨45, decimal n.natAbs, by rw [itoa, if_pos hn], .inl rfl⟩
  refine ⟨b, rest, by rw [itoa, if_neg hn, hdecimal], .inr ?_⟩
  have hall := decimalAux_digits n.natAbs n.natAbs
  rw [← decimal, hdecimal, all_cons, Bool.and_eq_true] at hall
  exact hall.1

private theorem takeWhile_decimal (n : Nat) {rest} (hrest : ∀ b ∈ rest.head?, isDigit b = false) :
    (decimal n ++ rest).takeWhile isDigit = decimal n := by
  rw [decimal, takeWhile_append_of_pos (all_eq_true.mp (decimalAux_digits n n))]
  cases rest with
  | nil => rw [takeWhile_nil, append_nil]
  | cons b => rw [takeWhile_cons_of_neg (by simp [hrest b rfl]), append_nil]

private theorem isSpace_itoa (n : Int) : ∀ b ∈ itoa n, isSpace b = false := by
  intro b hb
  by_contra hspace
  rw [Bool.not_eq_false] at hspace
  have hdigit : isDigit b = false ∧ b ≠ 45 := by
    simp only [isSpace, Bool.or_eq_true, decide_eq_true_eq, Bool.and_eq_true] at hspace
    constructor
    · rw [isDigit, Bool.and_eq_false_iff]
      left
      rw [decide_eq_false_iff_not]
      intro hle
      rcases hspace with rfl | ⟨-, h13⟩
      · exact absurd hle (by decide)
      · exact absurd (UInt8.le_trans hle h13) (by decide)
    · rintro rfl
      exact absurd hspace (by decide)
  exact not_mem_itoa hdigit.1 hdigit.2 n hb

private theorem scanInt_itoa {n : Int} (h : IsInt n) {rest} (hrest : ∀ b ∈ rest.head?, isDigit b = false) :
    scanInt (itoa n ++ rest) = some (n, rest) := by
  obtain ⟨b, _, hitoa, hb⟩ := head?_itoa n
  have hspace : (itoa n ++ rest).dropWhile isBlank = itoa n ++ rest := by
    have hb := isSpace_itoa n b (by rw [hitoa]; exact mem_cons_self)
    rw [hitoa, cons_append, dropWhile_cons_of_neg (by simp [isBlank, hb])]
  have hatoi := h.atoi
  simp only [scanInt, hspace]
  by_cases hn : n < 0
  · -- the sign is taken first
    rw [itoa, if_pos hn] at hatoi ⊢
    rw [if_pos (.inl rfl), cons_append, take_succ_cons, take_zero, length_singleton, drop_succ_cons,
      drop_zero, takeWhile_decimal _ hrest, singleton_append, hatoi, Nat.add_comm 1, drop_succ_cons, drop_left]
    rfl
  · have hdigit : isDigit b = true := by
      rcases hb with rfl | hb
      · rw [itoa, if_neg hn] at hitoa
        exact absurd (hitoa ▸ mem_cons_self) (not_mem_decimal (by decide) _)
      · exact hb
    have hhead : ¬ ((itoa n ++ rest).head? = some 45 ∨ (itoa n ++ rest).head? = some 43) := by
      rw [hitoa, cons_append, head?_cons]
      rintro (hb | hb) <;> rw [Option.some.inj hb] at hdigit <;> exact absurd hdigit (by decide)
    rw [if_neg hhead]
    rw [itoa, if_neg hn] at hatoi ⊢
    rw [length_nil, drop_zero, takeWhile_decimal _ hrest, nil_append, hatoi, Nat.zero_add, drop_left]
    rfl

theorem scanSeqNums_text {nextIn nextOut : Int} (hin : IsInt nextIn) (hout : IsInt nextOut) :
    scanSeqNums (seqNumsText nextIn nextOut) = some (nextIn, nextOut) := by
  have hfirst : scanInt (itoa nextIn ++ (32 :: itoa nextOut ++ [10])) = some (nextIn, 32 :: itoa nextOut ++ [10]) := by
    refine scanInt_itoa hin fun b hb => ?_
    cases hb
    decide
  have hspace : scanInt (32 :: itoa nextOut ++ [10]) = scanInt (itoa nextOut ++ [10]) := rfl
  have hsecond : scanInt (itoa nextOut ++ [10]) = some (nextOut, [10]) := by
    refine scanInt_itoa hout fun b hb => ?_
    cases hb
    decide
  rw [scanSeqNums, seqNumsText, append_assoc, hfirst]
  simp only [Option.bind_eq_bind, Option.bind_some, hspace, hsecond]
  rfl

theorem parseInt_itoa {n : Int} (h : IsInt n) : FileStore.parseInt (itoa n) = .ok n := by
  have htrim : trimSpace (itoa n) = itoa n := by
    have hdrop : ∀ l : Bytes, (∀ b ∈ l, isSpace b = false) → l.dropWhile isSpace = l := by
      intro l hl
      cases l with
      | nil => rfl
      | cons b => rw [dropWhile_cons_of_neg (by simp [hl b mem_cons_self])]
    rw [trimSpace, hdrop _ (isSpace_itoa n), hdrop _ fun b hb => isSpace_itoa n b (mem_reverse.mp hb), reverse_reverse]
  rw [FileStore.parseInt, htrim, h.atoi]

end Fxp.Fix
