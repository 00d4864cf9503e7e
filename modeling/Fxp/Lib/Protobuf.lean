import Mathlib

/-!
# Sizes of encoded messages

The protobuf encoding of numbers, strings and nested messages, and how long it gets. A field with the default value is
not written.
-/

namespace Protobuf

/-- The digits of `n` to the base 128, lowest first, all but the last marked; `fuel` is one less than their number at
least. -/
def varintAux : Nat → Nat → List UInt8
  | 0, n => [.ofNat (n % 128)]
  | fuel + 1, n => if n < 128 then [.ofNat n] else .ofNat (n % 128 + 128) :: varintAux fuel (n / 128)

/-- A number below `2 ^ 64`. -/
def varint (n : Nat) : List UInt8 := varintAux 9 n

/-- A signed number as one of 64 bits. -/
def unsigned (n : Int) : Nat := (n % 2 ^ 64).toNat

def key (field wireType : Nat) : List UInt8 := varint (field * 8 + wireType)

variable (field : Nat)

def int (n : Int) : List UInt8 := if n = 0 then [] else key field 0 ++ varint (unsigned n)

def delimited (body : List UInt8) : List UInt8 := key field 2 ++ varint body.length ++ body

def string (s : String) : List UInt8 := if s = "" then [] else delimited field s.toUTF8.toList

theorem varintAux_length_pos (fuel n : Nat) : 0 < (varintAux fuel n).length := by
  cases fuel with
  | zero => simp [varintAux]
  | succ =>
    rw [varintAux]
    split <;> simp

theorem varintAux_length_le (fuel n : Nat) : (varintAux fuel n).length ≤ fuel + 1 := by
  induction fuel generalizing n with
  | zero => simp [varintAux]
  | succ _ ih =>
    rw [varintAux]
    split
    · simp
    · simp [ih]

theorem varintAux_length_mono (fuel : Nat) {m n : Nat} (h : m ≤ n) :
    (varintAux fuel m).length ≤ (varintAux fuel n).length := by
  induction fuel generalizing m n with
  | zero => simp [varintAux]
  | succ _ ih =>
    rw [varintAux, varintAux]
    split
    · split <;> simp
    rw [if_neg (by omega), List.length_cons, List.length_cons]
    have := ih (Nat.div_le_div_right (c := 128) h)
    omega

theorem varint_length_pos (n : Nat) : 0 < (varint n).length := varintAux_length_pos 9 n

theorem varint_length_le (n : Nat) : (varint n).length ≤ 10 := varintAux_length_le 9 n

theorem varint_length_of_lt {n : Nat} (h : n < 128) : (varint n).length = 1 := by
  rw [varint, varintAux, if_pos h]
  rfl

theorem key_length {field wireType : Nat} (h : field * 8 + wireType < 128) : (key field wireType).length = 1 :=
  varint_length_of_lt h

/-- A number takes at most eleven bytes, in a field with a small number. -/
theorem int_length_le (h : field < 16) (n : Int) : (int field n).length ≤ 11 := by
  rw [int]
  split
  · simp
  have hkey : (key field 0).length = 1 := key_length (by omega)
  have := varint_length_le (unsigned n)
  rw [List.length_append]
  omega

theorem le_int_length (h : field < 16) {n : Int} (hn : n ≠ 0) : 2 ≤ (int field n).length := by
  rw [int, if_neg hn, List.length_append, key_length (by omega)]
  have := varint_length_pos (unsigned n)
  omega

theorem int_length_of_lt (h : field < 16) {n : Int} (h0 : 0 ≤ n) (hn : n < 128) :
    (int field n).length ≤ 2 := by
  rw [int]
  split
  · simp
  have hkey : (key field 0).length = 1 := key_length (by omega)
  have hvarint : (varint (unsigned n)).length = 1 := varint_length_of_lt (by rw [unsigned]; omega)
  rw [List.length_append]
  omega

theorem delimited_length (h : field < 15) (body : List UInt8) :
    body.length + 2 ≤ (delimited field body).length ∧ (delimited field body).length ≤ body.length + 11 := by
  rw [delimited, List.length_append, List.length_append, key_length (by omega)]
  have hpos := varint_length_pos body.length
  have hle := varint_length_le body.length
  omega

theorem delimited_length_of_lt (h : field < 15) {body} (hbody : body.length < 128) :
    (delimited field body).length = body.length + 2 := by
  rw [delimited, List.length_append, List.length_append, key_length (by omega), varint_length_of_lt hbody]
  omega

theorem delimited_length_mono {field : Nat} {body body'} (h : body.length ≤ body'.length) :
    (delimited field body).length ≤ (delimited field body').length := by
  have := varintAux_length_mono 9 h
  simp only [delimited, varint, List.length_append]
  omega

theorem string_length_le (h : field < 15) (s : String) :
    (string field s).length ≤ s.toUTF8.toList.length + 11 := by
  rw [string]
  split
  · simp
  · exact (delimited_length field h _).2

end Protobuf
