import Fxp.Fix.StoreRecords
import Mathlib

/-!
# Prices as text

Prices are integers in the minor unit of a symbol; clients write them as decimal numbers. `parsePrice` works on the
digits: it pads or cuts the fraction to the scale, drops leading zeros, and looks at one digit to round.
-/

namespace Fxp.Gateway

open List

open Fxp.Fix (Bytes isDigit isDigits value decimal itoa IsInt value_append value_cons value_lt le_value
      isDigit_iff isDigits_iff)

variable {s : Bytes}

/-- The encodings of the characters that `unicode.IsSpace` accepts. -/
def spaces : List Bytes :=
  [[9], [10], [11], [12], [13], [32], [0xC2, 0x85], [0xC2, 0xA0], [0xE1, 0x9A, 0x80],
    [0xE2, 0x80, 0x80], [0xE2, 0x80, 0x81], [0xE2, 0x80, 0x82], [0xE2, 0x80, 0x83], [0xE2, 0x80, 0x84],
    [0xE2, 0x80, 0x85], [0xE2, 0x80, 0x86], [0xE2, 0x80, 0x87], [0xE2, 0x80, 0x88], [0xE2, 0x80, 0x89],
    [0xE2, 0x80, 0x8A], [0xE2, 0x80, 0xA8], [0xE2, 0x80, 0xA9], [0xE2, 0x80, 0xAF], [0xE2, 0x81, 0x9F],
    [0xE3, 0x80, 0x80]]

def trimLeftStep (s : Bytes) : Option Bytes := (spaces.find? (·.isPrefixOf s)).map fun space => s.drop space.length

def trimRightStep (s : Bytes) : Option Bytes :=
  (spaces.find? (·.isSuffixOf s)).map fun space => s.take (s.length - space.length)

def trimSpace (s : Bytes) : Bytes :=
  let s := Loop.run trimLeftStep s.length s
  Loop.run trimRightStep s.length s

inductive PriceError
  /-- `invalid price %q`, with the text without its white space. -/
  | invalid (original : Bytes)
  /-- `price exceeds symbol precision`. -/
  | precision
  /-- `price out of int64 range`. -/
  | range
deriving DecidableEq

/-- The digits before the point and those behind it. -/
def splitPrice (original text : Bytes) : Except PriceError (Bytes × Bytes) :=
  let parts := text.splitOn 46
  if parts.length > 2 ∨ parts.length = 0 ∨ parts.headD [] = [] then .error (.invalid original)
  else if parts.any fun p => p = [] || !p.all isDigit then .error (.invalid original)
  else .ok (parts.headD [], if parts.length = 2 then parts.getD 1 [] else [])

def setString (s : Bytes) : Option Int :=
  let (negative, digits) := Fix.sign s
  if isDigits digits then some (if negative then -(value digits : Int) else value digits) else none

/-- The integer that the digits stand for at a scale. -/
def scalePrice (original : Bytes) (neg : Bool) (whole fraction : Bytes) (scale : Nat) (round : Bool) :
    Except PriceError Int :=
  let extra := fraction.drop scale
  if scale < fraction.length ∧ round = false ∧ extra.any (· ≠ 48) then .error .precision
  else
    let increase := scale < fraction.length && round && 53 ≤ extra.headD 0
    let fraction := if scale < fraction.length then fraction.take scale else fraction
    let fraction := fraction ++ List.replicate (scale - fraction.length) 48
    let whole := whole.dropWhile (· = 48)
    let whole := if whole = [] then [48] else whole
    if whole.length > 19 then .error .range
    else
      match setString (whole ++ fraction) with
      | none => .error (.invalid original)
      | some n =>
        let n := if increase then n + 1 else n
        let n := if neg then -n else n
        if -2 ^ 63 ≤ n ∧ n < 2 ^ 63 then .ok n else .error .range

def parsePrice (text : Bytes) (scale : Nat) (round : Bool) : Except PriceError Int := do
  let original := trimSpace text
  let neg : Bool := original.head? = some 45
  let text := if neg then original.tail else original
  let (whole, fraction) ← splitPrice original text
  scalePrice original neg whole fraction scale round

structure Rules where
  priceScale : Nat

def Rules.default : Rules := { priceScale := 2 }

structure SymbolConfig where
  rules : Std.ExtTreeMap String Rules

namespace SymbolConfig

def rulesFor (c : SymbolConfig) (symbol : String) : Rules := c.rules[symbol]?.getD .default

def parsePrice (c : SymbolConfig) (symbol : String) (text : Bytes) : Except PriceError Int :=
  Gateway.parsePrice text (c.rulesFor symbol).priceScale (!c.rules.contains symbol)

end SymbolConfig

/-- Two decimals, rounded half away from zero. -/
def parseDefault (text : Bytes) : Except PriceError Int := parsePrice text 2 true

def formatScale (value : Int) (scale : Nat) : Bytes :=
  let s := itoa value
  let sign : Bytes := if s.head? = some 45 then [45] else []
  let s := if s.head? = some 45 then s.tail else s
  if scale = 0 then sign ++ s
  else
    let s := if s.length ≤ scale then List.replicate (scale + 1 - s.length) 48 ++ s else s
    sign ++ s.take (s.length - scale) ++ 46 :: s.drop (s.length - scale)

def SymbolConfig.formatPrice (c : SymbolConfig) (symbol : String) (value : Int) : Bytes :=
  formatScale value (c.rulesFor symbol).priceScale

/-- A text of the form `-?digits[.digits]`. -/
structure PriceText where
  negative : Bool
  whole : Bytes
  fraction : Option Bytes
  whole_digits : isDigits whole = true
  fraction_digits : ∀ f ∈ fraction, isDigits f = true

namespace PriceText

def body (p : PriceText) : Bytes :=
  match p.fraction with
  | none => p.whole
  | some f => p.whole ++ 46 :: f

def text (p : PriceText) : Bytes := if p.negative then 45 :: p.body else p.body

def digits (p : PriceText) : Bytes := p.fraction.getD []

def size (p : PriceText) : ℚ := value p.whole + value p.digits / 10 ^ p.digits.length

def number (p : PriceText) : ℚ := if p.negative then -p.size else p.size

end PriceText

/-- The next integer, and of two the one away from zero. -/
def roundHalfAway (q : ℚ) : ℤ := if q < 0 then -⌊-q + 1 / 2⌋ else ⌊q + 1 / 2⌋

private theorem value_replicate (n : Nat) : value (List.replicate n 48) = 0 := by
  induction n with
  | zero => rfl
  | succ _ ih =>
    rw [replicate_succ, value_cons, ih]
    simp

private theorem value_dropWhile (s : Bytes) : value (s.dropWhile (· = 48)) = value s := by
  induction s with
  | nil => rfl
  | cons _ _ ih =>
    rw [dropWhile_cons]
    split
    · rename_i hb
      rw [decide_eq_true_eq] at hb
      rw [ih, value_cons, hb]
      simp
    · rfl

private theorem value_eq_zero (hs : s.all isDigit = true) : value s = 0 ↔ s.any (· ≠ 48) = false := by
  induction s with
  | nil => simp [value]
  | cons b s ih =>
    rw [all_cons, Bool.and_eq_true] at hs
    have hb := isDigit_iff.mp hs.1
    have h48 : b = 48 ↔ b.toNat = 48 := ⟨fun h => by rw [h]; rfl, fun h => UInt8.toNat_inj.mp h⟩
    have hpos : 0 < 10 ^ s.length := by positivity
    rw [value_cons, any_cons, Bool.or_eq_false_iff, ← ih hs.2, Nat.add_eq_zero_iff, Nat.mul_eq_zero,
      decide_eq_false_iff_not,
      ne_eq, not_not, h48]
    omega

private theorem half_le_value (hs : s.all isDigit = true) : 53 ≤ s.headD 0 ↔ 10 ^ s.length ≤ 2 * value s := by
  rcases s with _ | ⟨b, s⟩
  · simp [value]
  rw [all_cons, Bool.and_eq_true] at hs
  have hb := isDigit_iff.mp hs.1
  have hlt := value_lt hs.2
  have h53 : (53 : UInt8).toNat = 53 := rfl
  rw [headD_cons, UInt8.le_iff_toNat_le, h53, value_cons, length_cons, pow_succ]
  constructor
  · intro h
    have : 5 * 10 ^ s.length ≤ (b.toNat - 48) * 10 ^ s.length := Nat.mul_le_mul_right _ (by omega)
    omega
  intro h
  by_contra hsmall
  have : (b.toNat - 48) * 10 ^ s.length ≤ 4 * 10 ^ s.length := Nat.mul_le_mul_right _ (by omega)
  omega

private theorem point_notMem (hs : s.all isDigit = true) : (46 : UInt8) ∉ s := fun h =>
  absurd (all_eq_true.mp hs 46 h) (by decide)

variable (p : PriceText)

private theorem splitOn_body : p.body.splitOn 46 = p.whole :: p.fraction.toList := by
  have hwhole := point_notMem (isDigits_iff.mp p.whole_digits).2
  unfold PriceText.body
  rcases hfraction : p.fraction with _ | f
  · exact splitOn_eq_singleton hwhole
  have hf := point_notMem (isDigits_iff.mp (p.fraction_digits f hfraction)).2
  rw [splitOn_append_cons_of_beq _ _ (by decide), splitOn_eq_singleton hwhole, splitOn_eq_singleton hf]
  rfl

private theorem splitPrice_body (original : Bytes) (p : PriceText) :
    splitPrice original p.body = .ok (p.whole, p.digits) := by
  obtain ⟨hne, hdigits⟩ := isDigits_iff.mp p.whole_digits
  simp only [splitPrice, splitOn_body, PriceText.digits]
  rcases hfraction : p.fraction with _ | f
  · simp [hne]
    exact all_eq_true.mp hdigits
  obtain ⟨hne', hdigits'⟩ := isDigits_iff.mp (p.fraction_digits f hfraction)
  simp [hne, hne']
  exact ⟨all_eq_true.mp hdigits, all_eq_true.mp hdigits'⟩

private theorem body_of_splitPrice {original text whole fraction} (h : splitPrice original text = .ok (whole, fraction))
    (negative : Bool) : ∃ p : PriceText, p.negative = negative ∧ text = p.body ∧ p.whole = whole ∧
    p.digits = fraction := by
  have hjoin : [46].intercalate (text.splitOn 46) = text := intercalate_splitOn 46
  obtain ⟨parts, hparts⟩ : ∃ parts, text.splitOn 46 = parts := ⟨_, rfl⟩
  simp only [splitPrice, hparts] at h
  rw [hparts] at hjoin
  split at h
  · cases h
  rename_i hlength
  split at h
  · cases h
  rename_i hany
  have hdigits : ∀ p ∈ parts, isDigits p = true := by
    intro p hp
    rw [Bool.not_eq_true, any_eq_false] at hany
    have := hany p hp
    simp only [Bool.or_eq_true, decide_eq_true_eq, Bool.not_eq_true', not_or, Bool.not_eq_false] at this
    exact isDigits_iff.mpr this
  match parts with
  | [] => simp at hlength
  | [w] =>
    cases h
    refine ⟨⟨negative, w, none, hdigits w (by simp), nofun⟩, rfl, ?_, rfl, rfl⟩
    rw [← hjoin]
    simp [PriceText.body, List.intercalate]
  | [w, f] =>
    cases h
    refine ⟨⟨negative, w, some f, hdigits w (by simp), fun _ hf => Option.mem_some.mp hf ▸ hdigits f (by simp)⟩,
      rfl, ?_, rfl, rfl⟩
    rw [← hjoin]
    simp [PriceText.body, List.intercalate]
  | _ :: _ :: _ :: _ => simp at hlength

/-- The digits up to the scale, as an integer. -/
def scaledDigits (whole fraction : Bytes) (scale : Nat) : Nat :=
  value whole * 10 ^ scale + value (fraction.take scale) * 10 ^ (scale - fraction.length)

/-- The number is not less than half a unit above its digits up to the scale. -/
def roundsUp (fraction : Bytes) (scale : Nat) : Bool :=
  10 ^ (fraction.drop scale).length ≤ 2 * value (fraction.drop scale)

private theorem scaledDigits_eq (whole fraction : Bytes) (scale : Nat) :
    value (whole ++ ((if scale < fraction.length then fraction.take scale else fraction) ++
      List.replicate (scale - (if scale < fraction.length then fraction.take scale else fraction).length) 48)) =
      scaledDigits whole fraction scale := by
  have hcut : (if scale < fraction.length then fraction.take scale else fraction) = fraction.take scale := by
    split
    · rfl
    · rw [take_of_length_le (by omega)]
  have hlength : (fraction.take scale).length = min scale fraction.length := length_take
  have hpad : scale - min scale fraction.length = scale - fraction.length := by omega
  have hscale : min scale fraction.length + (scale - fraction.length) = scale := by omega
  rw [hcut, value_append, value_append, value_replicate, length_append, length_replicate, scaledDigits, hlength, hpad,
    hscale, Nat.add_zero]

private theorem setString_digits (hs : isDigits s = true) : setString s = some (value s : Int) := by
  simp [setString, Fix.sign_of_digits hs, hs]

private theorem not_isInt_of_long {whole} (hwhole : whole.all isDigit = true)
    (hlength : 19 < (whole.dropWhile (· = 48)).length)
    {n : Nat} (hn : value whole ≤ n) : ¬ IsInt n ∧ ¬ IsInt (-(n : Int)) := by
  have hdigits : (whole.dropWhile (· = 48)).all isDigit = true :=
    all_eq_true.mpr fun b hb => all_eq_true.mp hwhole b ((dropWhile_suffix _).subset hb)
  have hhead : (whole.dropWhile (· = 48)).head? ≠ some 48 := by
    intro h
    have := head?_dropWhile_not (fun b : UInt8 => decide (b = 48)) whole
    rw [h] at this
    simp at this
  have hle := le_value hdigits hhead hlength
  rw [value_dropWhile] at hle
  unfold IsInt
  omega

private theorem scalePrice_eq {whole fraction}
    (hwhole : isDigits whole = true) (hfraction : fraction.all isDigit = true)
    (original : Bytes) (neg : Bool) (scale : Nat) (round : Bool) :
    scalePrice original neg whole fraction scale round =
      if round = false ∧ value (fraction.drop scale) ≠ 0 then .error .precision
      else
        let n : Nat := scaledDigits whole fraction scale + if round && roundsUp fraction scale then 1 else 0
        let n : Int := if neg then -n else n
        if -2 ^ 63 ≤ n ∧ n < 2 ^ 63 then .ok n else .error .range := by
  obtain ⟨_, hdigits⟩ := isDigits_iff.mp hwhole
  have hextra : (fraction.drop scale).all isDigit = true :=
    all_eq_true.mpr fun b hb => all_eq_true.mp hfraction b (mem_of_mem_drop hb)
  have hempty : ¬ scale < fraction.length → fraction.drop scale = [] := fun h => drop_of_length_le (by omega)
  have hprecision : (scale < fraction.length ∧ round = false ∧ (fraction.drop scale).any (· ≠ 48) = true) ↔
      round = false ∧ value (fraction.drop scale) ≠ 0 := by
    rw [ne_eq, value_eq_zero hextra, Bool.not_eq_false]
    refine ⟨fun h => h.2, fun h => ⟨?_, h⟩⟩
    by_contra hle
    rw [hempty hle] at h
    simp at h
  have hincrease : (scale < fraction.length && round && 53 ≤ (fraction.drop scale).headD 0) =
      (round && roundsUp fraction scale) := by
    rw [Bool.eq_iff_iff, Bool.and_eq_true, Bool.and_eq_true, Bool.and_eq_true, decide_eq_true_eq, decide_eq_true_eq,
      half_le_value hextra, roundsUp, decide_eq_true_eq]
    refine ⟨fun h => ⟨h.1.2, h.2⟩, fun h => ⟨⟨?_, h.1⟩, h.2⟩⟩
    by_contra hle
    rw [hempty hle] at h
    simp [value] at h
  simp only [scalePrice, hprecision, hincrease]
  split
  · rfl
  obtain ⟨whole', hwhole'⟩ : ∃ w, (if whole.dropWhile (· = 48) = [] then [48] else whole.dropWhile (· = 48)) = w :=
    ⟨_, rfl⟩
  obtain ⟨fraction', hfraction'⟩ : ∃ f, (if scale < fraction.length then fraction.take scale else fraction) ++
    List.replicate (scale - (if scale < fraction.length then fraction.take scale else fraction).length) 48 =
      f := ⟨_, rfl⟩
  have hvalue : value whole' = value whole := by
    rw [← hwhole', ← value_dropWhile whole]
    split
    · rename_i h
      rw [h]
      rfl
    · rfl
  have hlong : 19 < whole'.length → 19 < (whole.dropWhile (· = 48)).length := by
    rw [← hwhole']
    split
    · simp
    · exact id
  have hdigits' : isDigits (whole' ++ fraction') = true := by
    have hdrop : (whole.dropWhile (· = 48)).all isDigit = true :=
      all_eq_true.mpr fun b hb => all_eq_true.mp hdigits b ((dropWhile_suffix _).subset hb)
    have htake : (if scale < fraction.length then fraction.take scale else fraction).all isDigit = true := by
      split
      · exact all_eq_true.mpr fun b hb => all_eq_true.mp hfraction b (mem_of_mem_take hb)
      · exact hfraction
    have hzeros : ∀ n, (List.replicate n (48 : UInt8)).all isDigit = true := fun n =>
      all_eq_true.mpr fun b hb => by rw [eq_of_mem_replicate hb]; rfl
    rw [isDigits_iff, ← hwhole', ← hfraction', all_append, all_append, htake, hzeros]
    split
    · exact ⟨by simp, rfl⟩
    · rename_i h
      exact ⟨by simp [h], by rw [hdrop]; rfl⟩
  have hscaled : value (whole' ++ fraction') = scaledDigits whole fraction scale := by
    rw [← hfraction', scaledDigits_eq, scaledDigits, scaledDigits, hvalue]
  simp only [hwhole', hfraction']
  split
  · rename_i hlength
    have hle : value whole ≤ scaledDigits whole fraction scale + if round && roundsUp fraction scale then 1 else 0 := by
      have : value whole ≤ value whole * 10 ^ scale := Nat.le_mul_of_pos_right _ (by positivity)
      rw [scaledDigits]
      omega
    obtain ⟨hpos, hneg⟩ := not_isInt_of_long hdigits (hlong hlength) hle
    rw [if_neg]
    split
    · exact hneg
    · exact hpos
  · rw [setString_digits hdigits', hscaled]
    cases round && roundsUp fraction scale <;> rfl

variable (scale : Nat)

/-- What is behind the scale, as a part of a unit. -/
def PriceText.rest : ℚ :=
  (value (p.digits.drop scale) : ℚ) / 10 ^ (p.digits.drop scale).length

private theorem size_scaled :
    p.size * 10 ^ scale = scaledDigits p.whole p.digits scale + p.rest scale := by
  by_cases hlt : scale < p.digits.length
  · have hsplit : (value p.digits : ℚ) =
        value (p.digits.take scale) * 10 ^ (p.digits.drop scale).length + value (p.digits.drop scale) := by
      rw [← Nat.cast_ofNat, ← Nat.cast_pow, ← Nat.cast_mul, ← Nat.cast_add, ← value_append, take_append_drop]
    have hlength : p.digits.length = scale + (p.digits.drop scale).length := by
      rw [length_drop]
      omega
    have hzero : scale - p.digits.length = 0 := by omega
    rw [PriceText.size, PriceText.rest, hsplit, scaledDigits, hzero, hlength, pow_add]
    push_cast
    field_simp
    ring
  · have hdrop : p.digits.drop scale = [] := drop_of_length_le (by omega)
    have htake : p.digits.take scale = p.digits := take_of_length_le (by omega)
    have hpow : (10 : ℚ) ^ scale = 10 ^ (scale - p.digits.length) * 10 ^ p.digits.length := by
      rw [← pow_add]
      congr 1
      omega
    rw [PriceText.size, PriceText.rest, scaledDigits, hdrop, htake, hpow]
    simp only [value, foldl_nil, length_nil, Nat.cast_zero, zero_div, add_zero]
    push_cast
    rw [hpow]
    field_simp

theorem PriceText.digits_all : p.digits.all isDigit = true := by
  unfold PriceText.digits
  cases hfraction : p.fraction with
  | none => rfl
  | some f => exact (isDigits_iff.mp (p.fraction_digits f hfraction)).2

private theorem rest_bounds : 0 ≤ p.rest scale ∧ p.rest scale < 1 := by
  have hlt : value (p.digits.drop scale) < 10 ^ (p.digits.drop scale).length :=
    value_lt (all_eq_true.mpr fun b hb => all_eq_true.mp p.digits_all b (mem_of_mem_drop hb))
  refine ⟨by unfold PriceText.rest; positivity, ?_⟩
  rw [PriceText.rest, div_lt_one (by positivity)]
  exact_mod_cast hlt

private theorem rest_eq_zero : p.rest scale = 0 ↔ value (p.digits.drop scale) = 0 := by
  rw [PriceText.rest, div_eq_zero_iff, Nat.cast_eq_zero]
  exact or_iff_left (by positivity)

private theorem half_le_rest : 1 / 2 ≤ p.rest scale ↔ roundsUp p.digits scale = true := by
  rw [PriceText.rest, roundsUp, decide_eq_true_eq, div_le_div_iff₀ (by norm_num) (by positivity), one_mul, mul_comm]
  exact_mod_cast Iff.rfl

private theorem size_eq_iff (n : ℤ) :
    p.size * 10 ^ scale = n ↔ value (p.digits.drop scale) = 0 ∧ n = scaledDigits p.whole p.digits scale := by
  obtain ⟨_, _⟩ := rest_bounds p scale
  rw [← rest_eq_zero, size_scaled]
  constructor
  · intro h
    have hfloor : n = scaledDigits p.whole p.digits scale := by
      have hle : ((scaledDigits p.whole p.digits scale : ℤ) : ℚ) ≤ n := by push_cast; linarith
      have hgt : (n : ℚ) < ((scaledDigits p.whole p.digits scale + 1 : ℤ) : ℚ) := by push_cast; linarith
      have hle' : (scaledDigits p.whole p.digits scale : ℤ) ≤ n := by exact_mod_cast hle
      have hgt' : n < (scaledDigits p.whole p.digits scale + 1 : ℤ) := by exact_mod_cast hgt
      omega
    refine ⟨?_, hfloor⟩
    rw [hfloor] at h
    push_cast at h
    linarith
  · rintro ⟨hrest, rfl⟩
    rw [hrest]
    push_cast
    ring

private theorem floor_size : ⌊p.size * 10 ^ scale + 1 / 2⌋ =
    scaledDigits p.whole p.digits scale + if roundsUp p.digits scale then 1 else 0 := by
  obtain ⟨_, _⟩ := rest_bounds p scale
  rw [size_scaled, Int.floor_eq_iff]
  by_cases hup : roundsUp p.digits scale = true
  · have hhalf := (half_le_rest p scale).mpr hup
    rw [if_pos hup]
    push_cast
    constructor <;> linarith
  · have hhalf := mt (half_le_rest p scale).mp hup
    rw [if_neg hup]
    push_cast
    constructor <;> linarith

private theorem size_nonneg : 0 ≤ p.size := by
  unfold PriceText.size
  positivity

private theorem roundHalfAway_number : roundHalfAway (p.number * 10 ^ scale) =
    if p.negative then -(scaledDigits p.whole p.digits scale + if roundsUp p.digits scale then 1 else 0 : ℤ)
    else scaledDigits p.whole p.digits scale + if roundsUp p.digits scale then 1 else 0 := by
  have hnonneg : 0 ≤ p.size * 10 ^ scale := mul_nonneg (size_nonneg p) (by positivity)
  rw [roundHalfAway, PriceText.number, ← floor_size]
  rcases p.negative with _ | _
  · simp only [Bool.false_eq_true, if_false, if_neg (not_lt.mpr hnonneg)]
  simp only [if_true, neg_mul, neg_neg]
  split
  · rfl
  -- the number is zero
  have hzero : p.size * 10 ^ scale = 0 := by linarith
  rw [hzero]
  norm_num

private theorem sign_text : decide (p.text.head? = some 45) = p.negative ∧
    (if p.negative then p.text.tail else p.text) = p.body := by
  rw [PriceText.text]
  cases p.negative with
  | true => exact ⟨rfl, rfl⟩
  | false =>
    refine ⟨?_, rfl⟩
    obtain ⟨hne, hdigits⟩ := isDigits_iff.mp p.whole_digits
    obtain ⟨b, _, hwhole⟩ := exists_cons_of_ne_nil hne
    have hhead : p.body.head? = some b := by
      rw [PriceText.body]
      split <;> rw [hwhole] <;> rfl
    rw [hwhole, all_cons, Bool.and_eq_true] at hdigits
    simp only [Bool.false_eq_true, if_false, hhead, decide_eq_false_iff_not, Option.some.injEq]
    rintro rfl
    exact absurd hdigits.1 (by decide)

/-- A price is accepted only from a text of the grammar. -/
theorem parsePrice_iff {text} {scale : Nat} {round : Bool} {n} : parsePrice text scale round = .ok n ↔
    ∃ p : PriceText, trimSpace text = p.text ∧ scalePrice p.text p.negative p.whole p.digits scale round = .ok n := by
  constructor
  · intro h
    unfold parsePrice at h
    obtain ⟨⟨_, _⟩, hsplit, hscale⟩ := Checked.bind_eq_ok.mp h
    obtain ⟨p, hneg, hbody, rfl, rfl⟩ := body_of_splitPrice hsplit (decide ((trimSpace text).head? = some 45))
    have htext : trimSpace text = p.text := by
      rw [PriceText.text, hneg, ← hbody]
      rcases htrim : trimSpace text with _ | ⟨b, _⟩
      · rfl
      by_cases hb : b = 45 <;> simp [hb]
    refine ⟨p, htext, ?_⟩
    rw [hneg, ← htext]
    exact hscale
  · rintro ⟨p, htext, hscale⟩
    obtain ⟨hneg, hbody⟩ := sign_text p
    simp only [parsePrice, htext, hneg, hbody, splitPrice_body]
    exact hscale

private theorem number_eq_iff (n : ℤ) : p.number * 10 ^ scale = n ↔ value (p.digits.drop scale) = 0 ∧
    n = if p.negative then -(scaledDigits p.whole p.digits scale : ℤ) else scaledDigits p.whole p.digits scale := by
  rw [PriceText.number]
  rcases p.negative with _ | _
  · exact size_eq_iff p scale n
  have h := size_eq_iff p scale (-n)
  simp only [if_true, neg_mul, neg_eq_iff_eq_neg (a := p.size * 10 ^ scale), ← Int.cast_neg, h]
  exact and_congr_right fun _ => neg_eq_iff_eq_neg

private theorem inRange_eq_ok {m n} :
    (if -2 ^ 63 ≤ m ∧ m < 2 ^ 63 then (.ok m : Except PriceError ℤ) else .error .range) = .ok n ↔ m = n ∧ IsInt n := by
  split
  · rename_i hint
    rw [Except.ok.injEq]
    exact ⟨fun h => ⟨h, h ▸ hint⟩, fun h => h.1⟩
  rename_i hint
  refine iff_of_false nofun ?_
  rintro ⟨rfl, h⟩
  exact hint h

/-- Without rounding: the exact number in the minor unit. -/
theorem parsePrice_exact {text} {scale : Nat} {n} : parsePrice text scale false = .ok n ↔
    ∃ p : PriceText, trimSpace text = p.text ∧ p.number * 10 ^ scale = n ∧ IsInt n := by
  rw [parsePrice_iff]
  refine exists_congr fun p => and_congr_right fun _ => ?_
  rw [scalePrice_eq p.whole_digits p.digits_all, number_eq_iff]
  simp only [Bool.false_and, Bool.false_eq_true, if_false, Nat.add_zero, true_and]
  by_cases hrest : value (p.digits.drop scale) = 0
  · simp only [hrest, ne_eq, not_true_eq_false, if_false, true_and]
    rw [inRange_eq_ok, eq_comm (a := n)]
  · simp [hrest]

/-- With rounding: the nearest integer in the minor unit. -/
theorem parsePrice_rounded {text} {scale : Nat} {n} : parsePrice text scale true = .ok n ↔
    ∃ p : PriceText, trimSpace text = p.text ∧ roundHalfAway (p.number * 10 ^ scale) = n ∧ IsInt n := by
  rw [parsePrice_iff]
  refine exists_congr fun p => and_congr_right fun _ => ?_
  rw [scalePrice_eq p.whole_digits p.digits_all, roundHalfAway_number]
  simp only [Bool.true_and, Bool.true_eq_false, false_and, if_false, Nat.cast_add, Nat.cast_ite, Nat.cast_one,
    Nat.cast_zero]
  exact inRange_eq_ok

private theorem trimLeftStep_none {b} (hb : b = 45 ∨ isDigit b = true) : trimLeftStep (b :: s) = none := by
  have hspaces : ∀ space ∈ spaces, (space.head?.any fun c => c ≠ 45 ∧ isDigit c = false) = true := by decide
  rw [trimLeftStep, Option.map_eq_none_iff, find?_eq_none]
  intro space hspace hmatch
  rw [List.isPrefixOf_iff_prefix] at hmatch
  have hhead := hspaces space hspace
  rcases space with _ | ⟨_, space⟩
  · cases hhead
  obtain ⟨h45, hdigit⟩ := of_decide_eq_true hhead
  rw [(cons_prefix_cons.mp hmatch).1] at h45 hdigit
  rcases hb with rfl | hb
  · exact h45 rfl
  · rw [hdigit] at hb
    cases hb

private theorem trimRightStep_none {b} (hb : isDigit b = true) : trimRightStep (s ++ [b]) = none := by
  have hspaces : ∀ space ∈ spaces, (space.getLast?.any fun c => isDigit c = false) = true := by decide
  rw [trimRightStep, Option.map_eq_none_iff, find?_eq_none]
  intro space hspace hmatch
  rw [isSuffixOf_iff_suffix] at hmatch
  have hlast := hspaces space hspace
  obtain ⟨_, hfront⟩ := hmatch
  cases space using List.reverseRecOn with
  | nil => cases hlast
  | append_singleton _ c =>
    rw [getLast?_concat] at hlast
    have hdigit : isDigit c = false := of_decide_eq_true hlast
    rw [← append_assoc] at hfront
    rw [(append_inj_right' hfront rfl |> List.cons.inj).1, hb] at hdigit
    cases hdigit

private theorem trimSpace_text : trimSpace p.text = p.text := by
  obtain ⟨hne, hdigits⟩ := isDigits_iff.mp p.whole_digits
  have hfirst : trimLeftStep p.text = none := by
    obtain ⟨_, _, hwhole⟩ := exists_cons_of_ne_nil hne
    rw [hwhole, all_cons, Bool.and_eq_true] at hdigits
    rw [PriceText.text, PriceText.body, hwhole]
    split
    · exact trimLeftStep_none (.inl rfl)
    split <;> exact trimLeftStep_none (.inr hdigits.1)
  have hlast : trimRightStep p.text = none := by
    obtain ⟨front, b, hb, htext⟩ : ∃ front b, isDigit b = true ∧ p.body = front ++ [b] := by
      rw [PriceText.body]
      split
      · refine ⟨p.whole.dropLast, p.whole.getLast hne, ?_, (dropLast_append_getLast hne).symm⟩
        exact all_eq_true.mp hdigits _ (getLast_mem hne)
      rename_i f hfraction
      obtain ⟨hne', hdigits'⟩ := isDigits_iff.mp (p.fraction_digits f hfraction)
      refine ⟨p.whole ++ 46 :: f.dropLast, f.getLast hne', all_eq_true.mp hdigits' _ (getLast_mem hne'), ?_⟩
      rw [append_assoc, cons_append, dropLast_append_getLast hne']
    rw [PriceText.text, htext]
    split
    · exact trimRightStep_none (s := 45 :: front) hb
    · exact trimRightStep_none hb
  simp only [trimSpace]
  rw [Loop.run_of_none hfirst, Loop.run_of_none hlast]

private theorem exists_priceText (hs : isDigits s = true) {scale : Nat}
    (hscale : scale ≠ 0) (hlength : scale < s.length) (negative : Bool) : ∃ p : PriceText, p.negative = negative ∧
      p.body = s.take (s.length - scale) ++ 46 :: s.drop (s.length - scale) ∧ p.size * 10 ^ scale = value s := by
  obtain ⟨_, hdigits⟩ := isDigits_iff.mp hs
  have htake : (s.take (s.length - scale)).length = s.length - scale := by
    rw [length_take]
    omega
  have hdrop : (s.drop (s.length - scale)).length = scale := by
    rw [length_drop]
    omega
  have hwhole : isDigits (s.take (s.length - scale)) = true :=
    isDigits_iff.mpr ⟨ne_nil_of_length_pos (by omega),
      all_eq_true.mpr fun b hb => all_eq_true.mp hdigits b (mem_of_mem_take hb)⟩
  have hfraction : isDigits (s.drop (s.length - scale)) = true :=
    isDigits_iff.mpr ⟨ne_nil_of_length_pos (by omega),
      all_eq_true.mpr fun b hb => all_eq_true.mp hdigits b (mem_of_mem_drop hb)⟩
  refine ⟨⟨negative, _, some _, hwhole, fun _ hf => Option.mem_some.mp hf ▸ hfraction⟩, rfl, rfl, ?_⟩
  have hvalue : (value s : ℚ) = value (s.take (s.length - scale)) * 10 ^ scale + value (s.drop (s.length - scale)) := by
    have := value_append (s.take (s.length - scale)) (s.drop (s.length - scale))
    rw [take_append_drop, hdrop] at this
    exact_mod_cast this
  rw [PriceText.size, PriceText.digits, hvalue]
  simp only [Option.getD_some, hdrop]
  field_simp

private theorem formatScale_text (v : ℤ) (scale : Nat) : ∃ p : PriceText, formatScale v scale = p.text ∧
    p.number * 10 ^ scale = v := by
  obtain ⟨hne, hdigits⟩ := isDigits_iff.mp (Fix.isDigits_decimal v.natAbs)
  have hhead : (decimal v.natAbs).head? ≠ some 45 := by
    intro h
    exact absurd (all_eq_true.mp hdigits 45 (mem_of_head? h)) (by decide)
  -- the sign and the digits
  have hsign : (if (itoa v).head? = some 45 then ([45] : Bytes) else []) = if v < 0 then [45] else [] := by
    rw [itoa]
    split <;> rfl
  have hrest : (if (itoa v).head? = some 45 then (itoa v).tail else itoa v) = decimal v.natAbs := by
    rw [itoa]
    split <;> rfl
  have hnumber : ∀ p : PriceText, p.negative = decide (v < 0) → p.size * 10 ^ scale = v.natAbs →
      p.number * 10 ^ scale = v := by
    intro p hneg hsize
    have habs : ((v.natAbs : ℤ) : ℚ) = |(v : ℚ)| := by rw [Int.natCast_natAbs, Int.cast_abs]
    rw [PriceText.number, hneg]
    by_cases hv : v < 0
    · have : (v : ℚ) < 0 := by exact_mod_cast hv
      rw [if_pos (decide_eq_true hv), neg_mul, hsize, ← Int.cast_natCast, habs, abs_of_neg this, neg_neg]
    · have : (0 : ℚ) ≤ v := by exact_mod_cast Int.not_lt.mp hv
      rw [if_neg (by simpa using hv), hsize, ← Int.cast_natCast, habs, abs_of_nonneg this]
  have htext : ∀ p : PriceText, p.negative = decide (v < 0) → (if v < 0 then ([45] : Bytes) else []) ++
      p.body = p.text := by
    intro p hneg
    rw [PriceText.text, hneg]
    by_cases hv : v < 0 <;> simp [hv]
  simp only [formatScale, hsign, hrest]
  by_cases hscale : scale = 0
  · refine ⟨⟨decide (v < 0), decimal v.natAbs, none, Fix.isDigits_decimal _, fun _ h => by cases h⟩, ?_,
      hnumber _ rfl ?_⟩
    · rw [if_pos hscale, ← htext _ rfl]
      rfl
    · have hnil : value [] = 0 := rfl
      simp [hscale, PriceText.size, PriceText.digits, Fix.value_decimal, hnil]
  · -- the digits are filled up so that one stands before the point
    obtain ⟨s, hs⟩ : ∃ s, (if (decimal v.natAbs).length ≤ scale then
      List.replicate (scale + 1 - (decimal v.natAbs).length) 48 ++ decimal v.natAbs else decimal v.natAbs) = s :=
      ⟨_, rfl⟩
    have hfilled : isDigits s = true ∧ scale < s.length ∧ value s = v.natAbs := by
      rw [← hs]
      split
      · refine ⟨isDigits_iff.mpr ⟨by simp [hne], ?_⟩, ?_, ?_⟩
        · rw [all_append, hdigits, Bool.and_true]
          exact all_eq_true.mpr fun _ hb => by rw [eq_of_mem_replicate hb]; rfl
        · rw [length_append, length_replicate]
          omega
        · rw [value_append, value_replicate, Fix.value_decimal, Nat.zero_mul, Nat.zero_add]
      · exact ⟨Fix.isDigits_decimal _, by omega, Fix.value_decimal _⟩
    obtain ⟨p, hneg, hbody, hsize⟩ := exists_priceText hfilled.1 hscale hfilled.2.1 (decide (v < 0))
    refine ⟨p, ?_, hnumber p hneg ?_⟩
    · rw [if_neg hscale, hs, append_assoc, ← hbody, htext p hneg]
    · rw [hsize, hfilled.2.2]

private theorem roundHalfAway_intCast (n : ℤ) : roundHalfAway n = n := by
  have hfloor : ∀ m : ℤ, ⌊(m : ℚ) + 1 / 2⌋ = m := fun m => by
    rw [Int.floor_eq_iff]
    constructor <;> linarith
  rw [roundHalfAway]
  split
  · rw [← Int.cast_neg, hfloor, neg_neg]
  · exact hfloor n

private theorem parsePrice_formatScale {v} (hv : IsInt v) (scale : Nat) (round : Bool) :
    parsePrice (formatScale v scale) scale round = .ok v := by
  obtain ⟨p, htext, hnumber⟩ := formatScale_text v scale
  rw [htext]
  cases round with
  | false => exact parsePrice_exact.mpr ⟨p, trimSpace_text p, hnumber, hv⟩
  | true =>
    refine parsePrice_rounded.mpr ⟨p, trimSpace_text p, ?_, hv⟩
    rw [hnumber, roundHalfAway_intCast]

/-- What is written is read back. At a configured symbol exactly the texts of integers in its minor unit are accepted;
elsewhere the number is rounded to two decimals. -/
theorem price_codec (c : SymbolConfig) :
    (∀ v scale round, IsInt v → parsePrice (formatScale v scale) scale round = .ok v) ∧
    (∀ symbol v, IsInt v → c.parsePrice symbol (c.formatPrice symbol v) = .ok v) ∧
    (∀ symbol rules text n, c.rules[symbol]? = some rules → (c.parsePrice symbol text = .ok n ↔
      ∃ p : PriceText, trimSpace text = p.text ∧ p.number * 10 ^ rules.priceScale = n ∧ IsInt n)) ∧
    (∀ symbol text n, c.rules[symbol]? = none → (c.parsePrice symbol text = .ok n ↔
      ∃ p : PriceText, trimSpace text = p.text ∧ roundHalfAway (p.number * 100) = n ∧ IsInt n)) ∧
    ∀ text n, parseDefault text = .ok n ↔
      ∃ p : PriceText, trimSpace text = p.text ∧ roundHalfAway (p.number * 100) = n ∧ IsInt n := by
  have hdefault : ∀ text n, parsePrice text 2 true = .ok n ↔
      ∃ p : PriceText, trimSpace text = p.text ∧ roundHalfAway (p.number * 100) = n ∧ IsInt n := by
    intro text n
    have hhundred : (100 : ℚ) = 10 ^ 2 := by norm_num
    rw [hhundred]
    exact parsePrice_rounded
  refine ⟨fun v scale round hv => parsePrice_formatScale hv scale round, fun symbol v hv =>
    parsePrice_formatScale hv _ _,
    fun symbol rules text n hrules => ?_, fun symbol text n hrules => ?_, hdefault⟩
  · rw [SymbolConfig.parsePrice, SymbolConfig.rulesFor, hrules, Maps.contains_of_some hrules]
    exact parsePrice_exact
  · rw [SymbolConfig.parsePrice, SymbolConfig.rulesFor, hrules, Maps.contains_eq_false_iff.mpr hrules]
    exact hdefault text n

/-- The smallest price, and a number in the middle of two at a symbol that is not configured. -/
theorem price_codec_extremes : IsInt (-2 ^ 63) ∧ parsePrice (formatScale (-2 ^ 63) 8) 8 false = .ok (-2 ^ 63) ∧
    ∃ p : PriceText, trimSpace [32, 45, 49, 46, 48, 48, 53] = p.text ∧ roundHalfAway (p.number * 100) = -101 ∧
    IsInt (-101) := by
  have hint : IsInt (-2 ^ 63) := ⟨by decide, by decide⟩
  obtain ⟨hround, -, -, hdefault, -⟩ := price_codec ⟨∅⟩
  exact ⟨hint, hround _ _ _ hint, (hdefault "X" _ _ (by simp)).mp (by decide +kernel)⟩

end Fxp.Gateway
