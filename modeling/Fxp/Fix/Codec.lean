import Fxp.Lib.Checked
import Mathlib

/-!
# FIX messages on the wire

A message is a list of `tag=value` fields, each ended by SOH, between a header with the length of the body and a
checksum. `build` writes a message and `readMessage` reads one.
-/

namespace Fxp.Fix

open List Option

abbrev Bytes := List UInt8

def text (s : String) : Bytes := s.toUTF8.toList

def soh : UInt8 := 1

def eqSign : UInt8 := 61

structure Field where
  tag : Nat
  value : Bytes
deriving DecidableEq

variable {fields : List Field}

def digit (d : Nat) : UInt8 := .ofNat (48 + d)

/-- The decimal digits of `n`; `fuel` is at least their number less one. -/
def decimalAux : Nat → Nat → Bytes
  | 0, n => [digit (n % 10)]
  | fuel + 1, n => if n < 10 then [digit n] else decimalAux fuel (n / 10) ++ [digit (n % 10)]

def decimal (n : Nat) : Bytes := decimalAux n n

def itoa (n : Int) : Bytes := if n < 0 then 45 :: decimal n.natAbs else decimal n.natAbs

def isDigit (b : UInt8) : Bool := 48 ≤ b && b ≤ 57

def isDigits (s : Bytes) : Bool := s ≠ [] && s.all isDigit

/-- The number the digits stand for. -/
def value (digits : Bytes) : Nat := digits.foldl (fun n b => n * 10 + (b.toNat - 48)) 0

/-- An optional sign: whether it is a minus, and what follows it. -/
def sign (s : Bytes) : Bool × Bytes :=
  if s.head? = some 45 then (true, s.tail) else if s.head? = some 43 then (false, s.tail) else (false, s)

/-- `strconv.Atoi`: an optional sign, digits, and a result of 64 bits. -/
def atoi (s : Bytes) : Option Int :=
  let (negative, digits) := sign s
  let n : Int := if negative then -(value digits : Int) else value digits
  if isDigits digits ∧ -2 ^ 63 ≤ n ∧ n < 2 ^ 63 then some n else none

structure Message where
  tags : List Field
deriving DecidableEq

namespace Message

/-- The last field with the tag: a later field overwrites an earlier one in the map of the source. -/
def field? (m : Message) (tag : Nat) : Option Bytes := (m.tags.reverse.find? (·.tag = tag)).map (·.value)

def get (m : Message) (tag : Nat) : Bytes := (m.field? tag).getD []

def getInt (m : Message) (tag : Nat) : Int := (atoi (m.get tag)).getD 0

def msgType (m : Message) : Bytes := m.get 35

end Message

/-- The fields of the body, in the order in which they were added. -/
abbrev Builder := List Field

namespace Builder

def set (tag : Nat) (value : Bytes) : Builder → Builder
  | [] => [{ tag, value }]
  | f :: b => if f.tag = tag then { tag, value } :: b else f :: set tag value b

end Builder

def newBuilder (msgType senderCompID targetCompID : Bytes) (seqNum : Int) (sendingTime : Bytes) : Builder :=
  [⟨35, msgType⟩, ⟨49, senderCompID⟩, ⟨56, targetCompID⟩, ⟨34, itoa seqNum⟩, ⟨52, sendingTime⟩]

def Field.bytes (f : Field) : Bytes := decimal f.tag ++ eqSign :: f.value ++ [soh]

def threeDigits (n : Nat) : Bytes := [digit (n / 100 % 10), digit (n / 10 % 10), digit (n % 10)]

def checksum (bytes : Bytes) : Nat := (bytes.map UInt8.toNat).sum % 256

/-- The header and the fields of the body, which all have a value. -/
def wire (fields : List Field) : Bytes :=
  let body := fields.flatMap Field.bytes
  let start := text "8=FIX.4.4" ++ [soh] ++ text "9=" ++ decimal body.length ++ [soh]
  start ++ body ++ text "10=" ++ threeDigits (checksum (start ++ body)) ++ [soh]

/-- Fields without a value are left out. -/
def build (b : Builder) : Bytes := wire (b.filter (·.value ≠ []))

inductive ParseError
  | garbled
  | beginString (m : Message)
  | eof
deriving DecidableEq

structure Parser where
  maxBodyLength : Nat := 1048576
  beginString : Bytes := text "FIX.4.4"

def cut (b : UInt8) : Bytes → Option (Bytes × Bytes)
  | [] => none
  | a :: bytes => if a = b then some ([], bytes) else (cut b bytes).map fun (front, rest) => (a :: front, rest)

/-- `tag=value`: the tag is a positive number without leading zeros. -/
def parseTagValue (pair : Bytes) : Option Field := do
  let (tagStr, value) ← cut eqSign pair
  if isDigits tagStr ∧ tagStr.head? ≠ some 48 then
    let tag ← atoi tagStr
    some { tag := tag.toNat, value }
  else none

/-- The data field that has to follow a length field. -/
def lengthDataTags : Nat → Option Nat
  | 90 => some 91
  | 93 => some 89
  | 95 => some 96
  | 212 => some 213
  | 348 => some 349
  | 350 => some 351
  | 352 => some 353
  | 354 => some 355
  | 356 => some 357
  | 358 => some 359
  | 360 => some 361
  | 362 => some 363
  | 364 => some 365
  | 445 => some 446
  | 618 => some 619
  | 621 => some 622
  | _ => none

/-- The value of the data field `dataTag` of the given length, and what follows it. -/
def parseData (dataTag : Nat) (length : Bytes) (remaining : Bytes) : Option (Field × Bytes) := do
  let dataLength ← atoi length
  if dataLength < 0 then none
  else
    let name := decimal dataTag ++ [eqSign]
    if name.isPrefixOf remaining then
      let data := remaining.drop name.length
      let n := dataLength.toNat
      if data[n]? = some soh then some ({ tag := dataTag, value := data.take n }, data.drop (n + 1)) else none
    else none

/-- The fields of a body; `fuel` is at least the number of fields. -/
def parseFieldsAux : Nat → Bytes → Option (List Field)
  | _, [] => some []
  | 0, _ :: _ => none
  | fuel + 1, data => do
    let (pair, remaining) ← cut soh data
    let f ← parseTagValue pair
    match lengthDataTags f.tag with
    | none => do
      let fields ← parseFieldsAux fuel remaining
      some (f :: fields)
    | some dataTag => do
      let (d, remaining) ← parseData dataTag f.value remaining
      let fields ← parseFieldsAux fuel remaining
      some (f :: d :: fields)

def parseFields (data : Bytes) : Option (List Field) := parseFieldsAux data.length data

def readField (stream : Bytes) : Except ParseError (Field × Bytes × Bytes) :=
  match cut soh stream with
  | none => .error .eof
  | some (pair, rest) =>
    match parseTagValue pair with
    | none => .error .garbled
    | some f => .ok (f, pair ++ [soh], rest)

/-- One message off a stream, and the rest of the stream. -/
def readMessage (p : Parser) (stream : Bytes) : Except ParseError (Message × Bytes) := do
  let (first, rawBeginString, stream) ← readField stream
  if first.tag ≠ 8 ∨ ¬ (text "FIX").isPrefixOf first.value then .error .garbled
  else
    let (second, rawBodyLength, stream) ← readField stream
    if second.tag ≠ 9 ∨ ¬ isDigits second.value then .error .garbled
    else
      match atoi second.value with
      | none => .error .garbled
      | some bodyLength =>
        if bodyLength ≤ 0 ∨ p.maxBodyLength < bodyLength then .error .garbled
        else
          let n := bodyLength.toNat
          if stream.length < n then .error .eof
          else
            let body := stream.take n
            let stream := stream.drop n
            if body.getLast? ≠ some soh then .error .garbled
            else
              match parseFields body with
              | none => .error .garbled
              | some fields =>
                if fields.head?.map (·.tag) ≠ some 35 ∨ fields.any (·.tag = 10) then .error .garbled
                else
                  let (last, _, stream) ← readField stream
                  if last.tag ≠ 10 ∨ last.value.length ≠ 3 ∨ ¬ last.value.all isDigit ∨
                      value last.value ≠ checksum (rawBeginString ++ rawBodyLength ++ body) then .error .garbled
                  else
                    let m : Message := { tags := first :: second :: fields ++ [last] }
                    if first.value ≠ p.beginString then .error (.beginString m) else .ok (m, stream)

private theorem toNat_digit {d : Nat} (h : d < 10) : (digit d).toNat = 48 + d := by
  rw [digit, UInt8.toNat_ofNat']
  omega

private theorem isDigit_digit {d : Nat} (h : d < 10) : isDigit (digit d) = true := by
  have h48 : (48 : UInt8).toNat = 48 := rfl
  have h57 : (57 : UInt8).toNat = 57 := rfl
  simp only [isDigit, UInt8.le_iff_toNat_le, toNat_digit h, Bool.and_eq_true, decide_eq_true_eq]
  omega

theorem decimalAux_ne_nil (fuel n : Nat) : decimalAux fuel n ≠ [] := by
  cases fuel with
  | zero => simp [decimalAux]
  | succ =>
    rw [decimalAux]
    split <;> simp

theorem decimalAux_digits (fuel n : Nat) : (decimalAux fuel n).all isDigit = true := by
  induction fuel generalizing n with
  | zero => simp [decimalAux, isDigit_digit (Nat.mod_lt n (by decide : 0 < 10))]
  | succ _ ih =>
    rw [decimalAux]
    split
    · rename_i h
      simp [isDigit_digit h]
    · simp [ih, isDigit_digit (Nat.mod_lt n (by decide : 0 < 10))]

private theorem value_concat (digits : Bytes) (b : UInt8) :
    value (digits ++ [b]) = value digits * 10 + (b.toNat - 48) := by
  simp [value]

private theorem value_decimalAux {fuel n : Nat} (h : n ≤ fuel) : value (decimalAux fuel n) = n := by
  induction fuel generalizing n with
  | zero =>
    obtain rfl : n = 0 := by omega
    rfl
  | succ _ ih =>
    rw [decimalAux]
    split
    · rename_i hn
      simp [value, toNat_digit hn]
    have hd := Nat.mod_lt n (by decide : 0 < 10)
    rw [value_concat, ih (by omega), toNat_digit hd]
    omega

private theorem head?_decimalAux {fuel n : Nat} (hn : 0 < n) (h : n ≤ fuel) : (decimalAux fuel n).head? ≠ some 48 := by
  induction fuel generalizing n with
  | zero => omega
  | succ _ ih =>
    rw [decimalAux]
    split
    · rename_i hsmall
      intro h48
      have := congrArg (Option.map UInt8.toNat) h48
      simp only [head?_cons, map_some, toNat_digit hsmall, Option.some.injEq] at this
      have h48' : (48 : UInt8).toNat = 48 := rfl
      omega
    · rw [head?_append_of_ne_nil _ (decimalAux_ne_nil _ _)]
      exact ih (by omega) (by omega)

private theorem head?_decimal {n : Nat} (hn : 0 < n) : (decimal n).head? ≠ some 48 :=
    head?_decimalAux hn (Nat.le_refl n)

theorem isDigits_iff {s} : isDigits s = true ↔ s ≠ [] ∧ s.all isDigit = true := by
  simp [isDigits]

theorem isDigits_decimal (n : Nat) : isDigits (decimal n) = true := by
  simp [isDigits, decimal, decimalAux_ne_nil, decimalAux_digits]

theorem value_decimal (n : Nat) : value (decimal n) = n := value_decimalAux (Nat.le_refl n)

theorem not_mem_decimal {b} (hb : isDigit b = false) (n : Nat) : b ∉ decimal n := by
  intro hmem
  have := all_eq_true.mp (decimalAux_digits n n) b hmem
  rw [hb] at this
  cases this

private theorem foldl_value (digits : Bytes) (n : Nat) :
    digits.foldl (fun n b => n * 10 + (b.toNat - 48)) n = n * 10 ^ digits.length + value digits := by
  induction digits generalizing n with
  | nil => simp [value]
  | cons _ _ ih =>
    rw [value, foldl_cons, foldl_cons, ih, ih, length_cons, pow_succ]
    ring

theorem value_append (s t : Bytes) : value (s ++ t) = value s * 10 ^ t.length + value t := by
  rw [value, foldl_append, foldl_value]
  rfl

theorem value_cons (b : UInt8) (s : Bytes) : value (b :: s) = (b.toNat - 48) * 10 ^ s.length + value s := by
  rw [← singleton_append, value_append]
  simp [value]

theorem isDigit_iff {b} : isDigit b = true ↔ 48 ≤ b.toNat ∧ b.toNat ≤ 57 := by
  simp only [isDigit, Bool.and_eq_true, decide_eq_true_eq, UInt8.le_iff_toNat_le]
  rfl

theorem value_lt {s} (hs : s.all isDigit = true) : value s < 10 ^ s.length := by
  induction s with
  | nil => simp [value]
  | cons b s ih =>
    rw [all_cons, Bool.and_eq_true] at hs
    have hb := isDigit_iff.mp hs.1
    have hlt := ih hs.2
    have hfirst : (b.toNat - 48) * 10 ^ s.length ≤ 9 * 10 ^ s.length := Nat.mul_le_mul_right _ (by omega)
    rw [value_cons, length_cons, pow_succ]
    omega

/-- A number without leading zeros is as large as its length says. -/
theorem le_value {s} (hs : s.all isDigit = true) (hhead : s.head? ≠ some 48) {n : Nat} (hn : n < s.length) :
    10 ^ n ≤ value s := by
  rcases s with _ | ⟨b, s⟩
  · simp at hn
  rw [all_cons, Bool.and_eq_true] at hs
  have hb := isDigit_iff.mp hs.1
  have hne : b.toNat ≠ 48 := fun h => hhead (congrArg some (UInt8.toNat_inj.mp h))
  calc 10 ^ n ≤ 10 ^ s.length := Nat.pow_le_pow_right (by decide) (by rw [length_cons] at hn; omega)
    _ ≤ (b.toNat - 48) * 10 ^ s.length := Nat.le_mul_of_pos_left _ (by omega)
    _ ≤ value (b :: s) := by rw [value_cons]; omega

/-- The decimal digits of a number are the shortest ones that stand for it. -/
theorem length_decimal_le {s} (hs : s.all isDigit = true) (hpos : 0 < value s) :
    (decimal (value s)).length ≤ s.length := by
  by_contra hlt
  have hdigits : (decimal (value s)).all isDigit = true := decimalAux_digits _ _
  have hle := le_value hdigits (head?_decimal hpos) (Nat.not_le.mp hlt)
  rw [value_decimal] at hle
  exact absurd (value_lt hs) (Nat.not_lt.mpr hle)

theorem sign_of_digits {s} (hs : isDigits s = true) : sign s = (false, s) := by
  rcases s with _ | ⟨b, s⟩
  · rfl
  have hb : isDigit b = true := by
    simp only [isDigits, all_cons, Bool.and_eq_true] at hs
    exact hs.2.1
  rw [sign, if_neg, if_neg]
  · rintro ⟨⟩
    exact absurd hb (by decide)
  · rintro ⟨⟩
    exact absurd hb (by decide)

private theorem atoi_of_digits {s} (hs : isDigits s = true) (hlt : value s < 2 ^ 63) :
    atoi s = some (value s : Int) := by
  simp only [atoi, sign_of_digits hs, hs, Bool.false_eq_true, if_false, true_and]
  rw [if_pos (by omega)]

theorem atoi_decimal {n : Nat} (h : n < 2 ^ 63) : atoi (decimal n) = some (n : Int) := by
  have := atoi_of_digits (isDigits_decimal n) (by rwa [value_decimal])
  rwa [value_decimal] at this

theorem atoi_itoa {n : Int} (h0 : 0 ≤ n) (h : n < 2 ^ 63) : atoi (itoa n) = some n := by
  rw [itoa, if_neg (by omega), atoi_decimal (by omega)]
  congr 1
  omega

theorem not_mem_itoa {b} (hb : isDigit b = false) (h45 : b ≠ 45) (n : Int) : b ∉ itoa n := by
  rw [itoa]
  split
  · exact fun h => (mem_cons.mp h).elim h45 (not_mem_decimal hb _)
  · exact not_mem_decimal hb _

theorem cut_append {b front} (h : b ∉ front) (rest : Bytes) :
    cut b (front ++ b :: rest) = some (front, rest) := by
  induction front with
  | nil => simp [cut]
  | cons _ _ ih =>
    rw [mem_cons, not_or] at h
    rw [cons_append, cut, if_neg (Ne.symm h.1), ih h.2]
    rfl

theorem of_cut {b l front rest} (h : cut b l = some (front, rest)) :
    l = front ++ b :: rest ∧ b ∉ front := by
  induction l generalizing front with
  | nil => cases h
  | cons _ _ ih =>
    rw [cut] at h
    split at h
    · rename_i hab
      cases h
      exact ⟨by rw [hab]; rfl, not_mem_nil⟩
    rename_i hab
    obtain ⟨⟨_, _⟩, hcut, heq⟩ := map_eq_some_iff.mp h
    cases heq
    obtain ⟨rfl, hmem⟩ := ih hcut
    exact ⟨rfl, fun hb => (mem_cons.mp hb).elim (fun he => hab he.symm) hmem⟩

/-- The tags a message may have. -/
def ValidTag (tag : Nat) : Prop := 0 < tag ∧ tag < 2 ^ 63

theorem parseTagValue_bytes {tag : Nat} (htag : ValidTag tag) (v : Bytes) :
    parseTagValue (decimal tag ++ eqSign :: v) = some ⟨tag, v⟩ := by
  have hcut : cut eqSign (decimal tag ++ eqSign :: v) = some (decimal tag, v) :=
    cut_append (not_mem_decimal (by decide) tag) v
  simp [parseTagValue, hcut, isDigits_decimal, head?_decimal htag.1, atoi_decimal htag.2]

private theorem le_value_append (n : Nat) (digits : Bytes) :
    n ≤ digits.foldl (fun n b => n * 10 + (b.toNat - 48)) n := by
  rw [foldl_value]
  exact Nat.le_add_right_of_le (Nat.le_mul_of_pos_right n (by positivity))

private theorem tag_of_atoi {s} {n : Int} (hs : isDigits s = true) (h48 : s.head? ≠ some 48) (h : atoi s = some n) :
    ValidTag n.toNat ∧ (decimal n.toNat).length ≤ s.length ∧ (n.toNat < 10 → s = [digit n.toNat]) := by
  have hlt : value s < 2 ^ 63 := by
    simp only [atoi, sign_of_digits hs, hs, Bool.false_eq_true, if_false, true_and] at h
    split at h
    · omega
    · cases h
  rw [atoi_of_digits hs hlt] at h
  cases h
  rw [Int.toNat_natCast]
  rcases s with _ | ⟨b, s⟩
  · cases hs
  have hb : isDigit b = true := by
    simp only [isDigits, all_cons, Bool.and_eq_true] at hs
    exact hs.2.1
  have hpos : 48 < b.toNat := by
    simp only [isDigit, UInt8.le_iff_toNat_le, Bool.and_eq_true, decide_eq_true_eq] at hb
    have h48' : (48 : UInt8).toNat = 48 := rfl
    have : b.toNat ≠ 48 := fun he => h48 (congrArg some (UInt8.toNat_inj.mp he))
    omega
  have hle : 0 * 10 + (b.toNat - 48) ≤ value (b :: s) := le_value_append _ s
  refine ⟨⟨by omega, hlt⟩, length_decimal_le (isDigits_iff.mp hs).2 (by omega), fun _ => ?_⟩
  cases s with
  | nil =>
    have hvalue : value [b] = b.toNat - 48 := by simp [value]
    rw [hvalue, digit, show 48 + (b.toNat - 48) = b.toNat by omega, UInt8.ofNat_toNat]
  | cons c s =>
    have : (0 * 10 + (b.toNat - 48)) * 10 + (c.toNat - 48) ≤ value (b :: c :: s) := le_value_append _ s
    omega

theorem of_parseTagValue {pair f} (h : parseTagValue pair = some f) : ValidTag f.tag ∧
    ∃ tagStr, pair = tagStr ++ eqSign :: f.value ∧ (decimal f.tag).length ≤ tagStr.length ∧
      (f.tag < 10 → tagStr = [digit f.tag]) := by
  rw [parseTagValue] at h
  obtain ⟨⟨tagStr, _⟩, hcut, h⟩ := bind_eq_some_iff.mp h
  simp only at h
  split at h
  · rename_i hdigits
    obtain ⟨_, htag, h⟩ := bind_eq_some_iff.mp h
    cases h
    obtain ⟨hvalid, hlength, hsmall⟩ := tag_of_atoi hdigits.1 hdigits.2 htag
    exact ⟨hvalid, tagStr, (of_cut hcut).1, hlength, hsmall⟩
  · cases h

/-- Lists of fields that can be told apart on the wire. -/
inductive Framed : List Field → Prop
  | nil : Framed []
  | plain {f fields} (htag : ValidTag f.tag) (hlength : lengthDataTags f.tag = none)
      (hvalue : soh ∉ f.value) (h : Framed fields) : Framed (f :: fields)
  | data {f d fields} (htag : ValidTag f.tag) (hlength : lengthDataTags f.tag = some d.tag)
      (hvalue : soh ∉ f.value) (hdata : atoi f.value = some (d.value.length : Int)) (h : Framed fields) :
      Framed (f :: d :: fields)

/-- Fields that announce no data. -/
def Plain (f : Field) : Prop := (0 < f.tag ∧ f.tag < 2 ^ 63 ∧ lengthDataTags f.tag = none) ∧ soh ∉ f.value

theorem Framed.of_plain (h : ∀ f ∈ fields, Plain f) : Framed fields := by
  induction fields with
  | nil => exact .nil
  | cons f _ ih =>
    obtain ⟨⟨hpos, hlt, hlength⟩, hvalue⟩ := h f mem_cons_self
    exact .plain ⟨hpos, hlt⟩ hlength hvalue (ih fun f' hf' => h f' (mem_cons_of_mem _ hf'))

theorem Field.bytes_append (f : Field) (rest : Bytes) :
    f.bytes ++ rest = (decimal f.tag ++ eqSign :: f.value) ++ soh :: rest := by
  simp [Field.bytes]

theorem soh_not_mem_pair {f : Field} (hvalue : soh ∉ f.value) : soh ∉ decimal f.tag ++ eqSign :: f.value := by
  intro h
  rcases mem_append.mp h with h | h
  · exact not_mem_decimal (by decide) _ h
  · exact (mem_cons.mp h).elim (by decide) hvalue

private theorem parseData_bytes {length d} (h : atoi length = some (d.value.length : Int)) (rest : Bytes) :
    parseData d.tag length (d.bytes ++ rest) = some (d, rest) := by
  have hstart : (decimal d.tag ++ [eqSign]).isPrefixOf (d.bytes ++ rest) = true := by
    rw [List.isPrefixOf_iff_prefix]
    exact ⟨d.value ++ soh :: rest, by simp [Field.bytes]⟩
  have hdrop : (d.bytes ++ rest).drop (decimal d.tag ++ [eqSign]).length = d.value ++ soh :: rest := by
    have : d.bytes ++ rest = (decimal d.tag ++ [eqSign]) ++ (d.value ++ soh :: rest) := by simp [Field.bytes]
    rw [this, drop_left]
  have hdata : ¬ (d.value.length : Int) < 0 := by omega
  simp only [parseData, h, bind_eq_bind, bind_some, if_neg hdata, hstart, if_true, hdrop, Int.toNat_natCast]
  simp

private theorem of_parseData {dataTag : Nat} {length remaining rest d}
    (h : parseData dataTag length remaining = some (d, rest)) :
    d.tag = dataTag ∧ atoi length = some (d.value.length : Int) ∧ d.bytes.length + rest.length = remaining.length := by
  rw [parseData] at h
  obtain ⟨_, hlength, h⟩ := bind_eq_some_iff.mp h
  split at h
  · cases h
  rename_i hneg
  simp only at h
  split at h
  · rename_i hname
    split at h
    · rename_i hsoh
      cases h
      have hlt := (List.getElem?_eq_some_iff.mp hsoh).1
      have hle := (List.isPrefixOf_iff_prefix.mp hname).length_le
      rw [length_drop] at hlt
      simp only [length_append, length_cons, length_nil] at hlt hle
      refine ⟨rfl, ?_, ?_⟩
      · rw [hlength, length_take, length_drop, length_append, length_singleton]
        congr 1
        omega
      · simp only [Field.bytes, length_append, length_cons, length_take, length_drop, length_nil]
        omega
    · cases h
  · cases h

private theorem parseFieldsAux_bytes (h : Framed fields) {fuel : Nat} (hfuel : fields.length ≤ fuel) :
    parseFieldsAux fuel (fields.flatMap Field.bytes) = some fields := by
  induction h generalizing fuel with
  | nil => cases fuel <;> rfl
  | @plain _ _ htag hlength hvalue _ ih =>
    obtain ⟨fuel, rfl⟩ : ∃ n, fuel = n + 1 := ⟨fuel - 1, by rw [length_cons] at hfuel; omega⟩
    have hrest := @ih fuel (by simpa using hfuel)
    rw [flatMap_cons, Field.bytes_append, parseFieldsAux, cut_append (soh_not_mem_pair hvalue)]
    · simp [parseTagValue_bytes htag, hlength, hrest]
    · simp
  | @data _ _ _ htag hlength hvalue hdata _ ih =>
    obtain ⟨fuel, rfl⟩ : ∃ n, fuel = n + 1 := ⟨fuel - 1, by rw [length_cons] at hfuel; omega⟩
    have hrest := @ih fuel (by simp at hfuel; omega)
    rw [flatMap_cons, Field.bytes_append, flatMap_cons, parseFieldsAux, cut_append (soh_not_mem_pair hvalue)]
    · simp [parseTagValue_bytes htag, hlength, parseData_bytes hdata, hrest]
    · simp

theorem of_parseFieldsAux {fuel : Nat} {data} (h : parseFieldsAux fuel data = some fields) :
    Framed fields ∧ (fields.flatMap Field.bytes).length ≤ data.length := by
  induction fuel generalizing data fields with
  | zero =>
    cases data with
    | nil =>
      cases h
      exact ⟨.nil, Nat.le_refl _⟩
    | cons => cases h
  | succ _ ih =>
    rcases data with _ | ⟨_, data⟩
    · cases h
      exact ⟨.nil, Nat.le_refl _⟩
    rw [parseFieldsAux] at h
    · obtain ⟨⟨_, _⟩, hcut, h⟩ := bind_eq_some_iff.mp h
      obtain ⟨f, hf, h⟩ := bind_eq_some_iff.mp h
      obtain ⟨htag, _, hpair, hdecimal, -⟩ := of_parseTagValue hf
      have hvalue : soh ∉ f.value := fun hsoh => (of_cut hcut).2 (by simp [hpair, hsoh])
      have hbytes := congrArg length (of_cut hcut).1
      rw [hpair] at hbytes
      simp only [length_append, length_cons] at hbytes
      simp only at h
      cases hlength : lengthDataTags f.tag with
      | none =>
        rw [hlength] at h
        obtain ⟨_, hfields, h⟩ := bind_eq_some_iff.mp h
        cases h
        obtain ⟨hframed, hle⟩ := ih hfields
        refine ⟨.plain htag hlength hvalue hframed, ?_⟩
        simp only [flatMap_cons, Field.bytes, length_append, length_cons, length_nil] at hle ⊢
        omega
      | some =>
        rw [hlength] at h
        obtain ⟨⟨_, _⟩, hd, h⟩ := bind_eq_some_iff.mp h
        obtain ⟨_, hfields, h⟩ := bind_eq_some_iff.mp h
        cases h
        obtain ⟨rfl, hdata, hrest⟩ := of_parseData hd
        obtain ⟨hframed, hle⟩ := ih hfields
        refine ⟨.data htag hlength hvalue hdata hframed, ?_⟩
        simp only [flatMap_cons, Field.bytes, length_append, length_cons, length_nil] at hrest hle ⊢
        omega
    · nofun

private theorem length_le_bytes (fields : List Field) : fields.length ≤ (fields.flatMap Field.bytes).length := by
  induction fields with
  | nil => exact Nat.le_refl _
  | cons =>
    rw [flatMap_cons, length_append, length_cons, Field.bytes, length_append, length_singleton]
    omega

private theorem parseFields_bytes (h : Framed fields) :
    parseFields (fields.flatMap Field.bytes) = some fields :=
  parseFieldsAux_bytes h (length_le_bytes fields)

private theorem readField_bytes {f : Field} (htag : ValidTag f.tag) (hvalue : soh ∉ f.value) (rest : Bytes) :
    readField (f.bytes ++ rest) = .ok (f, f.bytes, rest) := by
  rw [readField, Field.bytes_append, cut_append (soh_not_mem_pair hvalue)]
  simp only [parseTagValue_bytes htag]
  simp [Field.bytes]

private theorem value_threeDigits {n : Nat} (h : n < 256) : value (threeDigits n) = n := by
  have h1 := Nat.mod_lt (n / 100) (by decide : 0 < 10)
  have h2 := Nat.mod_lt (n / 10) (by decide : 0 < 10)
  have h3 := Nat.mod_lt n (by decide : 0 < 10)
  simp only [value, threeDigits, foldl_cons, foldl_nil, toNat_digit h1, toNat_digit h2, toNat_digit h3]
  omega

private theorem threeDigits_digits (n : Nat) : (threeDigits n).all isDigit = true := by
  simp [threeDigits, isDigit_digit, Nat.mod_lt]

/-- The fields before and after the body. -/
def beginField : Field := ⟨8, text "FIX.4.4"⟩

def lengthField (fields : List Field) : Field := ⟨9, decimal (fields.flatMap Field.bytes).length⟩

def checksumField (fields : List Field) : Field :=
  ⟨10, threeDigits (checksum (beginField.bytes ++ (lengthField fields).bytes ++ fields.flatMap Field.bytes))⟩

def messageOf (fields : List Field) : Message :=
  { tags := beginField :: lengthField fields :: fields ++ [checksumField fields] }

theorem wire_eq (fields : List Field) :
    wire fields = beginField.bytes ++ ((lengthField fields).bytes
      ++ (fields.flatMap Field.bytes ++ (checksumField fields).bytes)) := by
  have h8 : text "8=FIX.4.4" = decimal 8 ++ eqSign :: text "FIX.4.4" := by decide +kernel
  have h9 : text "9=" = decimal 9 ++ [eqSign] := by decide +kernel
  have h10 : text "10=" = decimal 10 ++ [eqSign] := by decide +kernel
  simp only [wire, beginField, lengthField, checksumField, Field.bytes, h8, h9, h10, append_assoc, cons_append,
    nil_append]

private theorem getLast?_bytes (h : fields ≠ []) :
    (fields.flatMap Field.bytes).getLast? = some soh := by
  obtain ⟨_, _, rfl⟩ := (eq_nil_or_concat' fields).resolve_left h
  rw [flatMap_append, flatMap_singleton, Field.bytes, ← append_assoc, getLast?_concat]

/-- What is read of a frame depends on how its body is parsed. -/
theorem readMessage_wire_eq (hne : fields ≠ []) {p} (hbegin : p.beginString = text "FIX.4.4")
    (hsize : (fields.flatMap Field.bytes).length ≤ p.maxBodyLength)
    (hlt : (fields.flatMap Field.bytes).length < 2 ^ 63) (rest : Bytes) :
    readMessage p (wire fields ++ rest) = (parseFields (fields.flatMap Field.bytes)).elim (.error .garbled) fun fs =>
      if fs.head?.map (·.tag) ≠ some 35 ∨ fs.any (·.tag = 10) then .error .garbled
      else .ok (⟨beginField :: lengthField fields :: fs ++ [checksumField fields]⟩, rest) := by
  have hbody : 0 < (fields.flatMap Field.bytes).length :=
    Nat.lt_of_lt_of_le (length_pos_of_ne_nil hne) (length_le_bytes fields)
  have h8 : ¬ (beginField.tag ≠ 8 ∨ ¬ (text "FIX").isPrefixOf beginField.value = true) := by decide +kernel
  have h9 : ¬ ((lengthField fields).tag ≠ 9 ∨ ¬ isDigits (lengthField fields).value = true) := by
    simp [lengthField, isDigits_decimal]
  have hrange : ¬ (((fields.flatMap Field.bytes).length : Int) ≤ 0
      ∨ (p.maxBodyLength : Int) < (fields.flatMap Field.bytes).length) := by omega
  have h10 : ¬ ((checksumField fields).tag ≠ 10 ∨ (checksumField fields).value.length ≠ 3
      ∨ ¬ (checksumField fields).value.all isDigit = true ∨ value (checksumField fields).value
        ≠ checksum (beginField.bytes ++ (lengthField fields).bytes ++ fields.flatMap Field.bytes)) := by
    simp only [checksumField, threeDigits_digits, value_threeDigits (Nat.mod_lt _ (by decide : 0 < 256)), checksum]
    simp [threeDigits]
  have hlength : readField ((lengthField fields).bytes ++ (fields.flatMap Field.bytes
      ++ ((checksumField fields).bytes ++ rest))) = .ok (_, _, _) :=
    readField_bytes (show ValidTag 9 from ⟨by decide, by decide⟩) (not_mem_decimal (by decide) _) _
  have hchecksum : readField ((checksumField fields).bytes ++ rest) = .ok (_, _, _) :=
    readField_bytes (show ValidTag 10 from ⟨by decide, by decide⟩) (fun hmem => absurd
      (all_eq_true.mp (threeDigits_digits _) _ hmem) (by decide)) rest
  rw [wire_eq, append_assoc, append_assoc, append_assoc, readMessage,
    readField_bytes ⟨by decide, by decide⟩ (by decide +kernel)]
  simp only [Checked.ok_bind, if_neg h8, hlength, if_neg h9]
  rw [lengthField, atoi_decimal hlt]
  simp only [if_neg hrange, Int.toNat_natCast]
  rw [if_neg (by simp)]
  simp only [take_left, drop_left, getLast?_bytes hne, ne_eq, not_true_eq_false, if_false]
  rw [← lengthField]
  cases parseFields (fields.flatMap Field.bytes) with
  | none => rfl
  | some fs =>
    have hversion : ¬ ¬ beginField.value = p.beginString := by
      rw [hbegin]
      exact fun hne => hne rfl
    simp only [elim_some, hchecksum, Checked.ok_bind, if_neg h10, if_neg hversion]

/-- A message with a type and without a second checksum is read back. -/
theorem readMessage_wire (h : Framed fields) (htype : fields.head?.map (·.tag) = some 35)
    (hsum : ∀ f ∈ fields, f.tag ≠ 10) {p} (hbegin : p.beginString = text "FIX.4.4")
    (hsize : (fields.flatMap Field.bytes).length ≤ p.maxBodyLength)
    (hlt : (fields.flatMap Field.bytes).length < 2 ^ 63) (rest : Bytes) :
    readMessage p (wire fields ++ rest) = .ok (messageOf fields, rest) := by
  have hne : fields ≠ [] := by
    rintro rfl
    cases htype
  have h35 : ¬ (fields.head?.map (·.tag) ≠ some 35 ∨ fields.any (·.tag = 10) = true) := by
    simpa [htype] using hsum
  rw [readMessage_wire_eq hne hbegin hsize hlt, parseFields_bytes h, elim_some, if_neg h35]
  rfl

private theorem readField_length {stream raw rest f} (h : readField stream = .ok (f, raw, rest)) :
    f.value.length + 1 + rest.length < stream.length := by
  rw [readField] at h
  split at h
  · cases h
  rename_i hcut
  split at h
  · cases h
  rename_i hpair
  cases h
  obtain ⟨-, _, rfl, -⟩ := of_parseTagValue hpair
  simp only [(of_cut hcut).1, length_append, length_cons]
  omega

/-- The parts of a message that was read, and that the stream is long enough for them. -/
theorem of_readMessage {p stream rest m} (h : readMessage p stream = .ok (m, rest)) :
    ∃ first second fields last n, m.tags = first :: second :: fields ++ [last]
      ∧ first.tag = 8 ∧ second.tag = 9 ∧ last.tag = 10 ∧ Framed fields ∧ fields.head?.map (·.tag) = some 35
      ∧ atoi second.value = some n
      ∧ first.value.length + second.value.length + n.toNat + 5 < stream.length := by
  rw [readMessage] at h
  obtain ⟨⟨first, _, _⟩, hfirst, h⟩ := Checked.bind_eq_ok.mp h
  simp only at h
  split at h
  · cases h
  rename_i h8
  obtain ⟨⟨second, _, _⟩, hsecond, h⟩ := Checked.bind_eq_ok.mp h
  simp only at h
  split at h
  · cases h
  rename_i h9
  split at h
  · cases h
  rename_i n hlength
  split at h
  · cases h
  split at h
  · cases h
  split at h
  · cases h
  split at h
  · cases h
  rename_i fields hfields
  split at h
  · cases h
  rename_i h35
  obtain ⟨⟨last, _, _⟩, hlast, h⟩ := Checked.bind_eq_ok.mp h
  simp only at h
  split at h
  · cases h
  rename_i h10
  split at h
  · cases h
  cases h
  push Not at h8 h9 h35 h10
  refine ⟨first, second, fields, last, n, rfl, h8.1, h9.1, h10.1, (of_parseFieldsAux hfields).1, h35.1, hlength, ?_⟩
  have hlength₁ := readField_length hfirst
  have hlength₂ := readField_length hsecond
  have hlength₃ := readField_length hlast
  rw [length_drop] at hlength₃
  omega

end Fxp.Fix
