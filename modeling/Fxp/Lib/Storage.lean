import Mathlib

/-!
# Sequential files

A file is a string of bytes with a cursor. `File.at a b` is the file with the cursor between `a` and `b`: reading and
writing move bytes over the cursor, and the lemmas about the operations are stated for it.
-/

namespace Storage

open List

structure File where
  bytes : List UInt8
  pos : Nat := 0
deriving DecidableEq

namespace File

/-- Reads `n` bytes; a read that reaches the end of the file before that gives nothing. -/
def readExact (n : Nat) (f : File) : Option (List UInt8) × File :=
  if f.pos + n ≤ f.bytes.length then
    (some ((f.bytes.drop f.pos).take n), { f with pos := f.pos + n })
  else (none, { f with pos := f.bytes.length })

/-- Writes over what is behind the cursor; a gap between the end of the file and the cursor is filled with zeros. -/
def write (data : List UInt8) (f : File) : File :=
  { bytes := f.bytes.take f.pos ++ List.replicate (f.pos - f.bytes.length) 0 ++ data
      ++ f.bytes.drop (f.pos + data.length)
    pos := f.pos + data.length }

def setLen (n : Nat) (f : File) : File :=
  { f with bytes := f.bytes.take n ++ List.replicate (n - f.bytes.length) 0 }

def seek (n : Nat) (f : File) : File := { f with pos := n }

/-- The file `a ++ b` with the cursor behind `a`. -/
def «at» (a b : List UInt8) : File := { bytes := a ++ b, pos := a.length }

@[simp] theorem at_bytes (a b : List UInt8) : («at» a b).bytes = a ++ b := rfl

@[simp] theorem at_pos (a b : List UInt8) : («at» a b).pos = a.length := rfl

theorem readExact_at {data} {n : Nat} (a b : List UInt8) (hn : data.length = n) :
    («at» a (data ++ b)).readExact n = (some data, «at» (a ++ data) b) := by
  subst hn
  simp [readExact, «at»]

theorem readExact_short {b} {n : Nat} (a : List UInt8) (hn : b.length < n) :
    («at» a b).readExact n = (none, «at» (a ++ b) []) := by
  simp [readExact, «at», hn]

theorem write_end (a data : List UInt8) : («at» a []).write data = «at» (a ++ data) [] := by
  simp [write, «at»]

theorem seek_zero (f : File) : f.seek 0 = «at» [] f.bytes := rfl

theorem setLen_seek {a b : List UInt8} {f : File} (hf : f.bytes = a ++ b) :
    (f.setLen a.length).seek a.length = «at» a [] := by
  simp [setLen, seek, «at», hf]

end File

/-- The first `k` elements of the chunks: `m` whole chunks, and a proper prefix of the next one, if there is one. -/
theorem exists_take_flatten {β : Type*} (ls : List (List β)) (k : Nat) :
    ∃ m torn, ls.flatten.take k = (ls.take m).flatten ++ torn
      ∧ (torn = [] ∨ ∃ l ∈ ls, torn <+: l ∧ torn.length < l.length)
      ∧ m ≤ ls.length ∧ ∀ i ≤ ls.length, (ls.take i).flatten.length ≤ k ↔ i ≤ m := by
  induction ls generalizing k with
  | nil => exact ⟨0, [], by simp, .inl rfl, Nat.le_refl _, fun i hi => by simpa using hi⟩
  | cons l _ ih =>
    by_cases hl : l.length ≤ k
    · obtain ⟨m, torn, htake, htorn, hm, hiff⟩ := ih (k - l.length)
      refine ⟨m + 1, torn, ?_, ?_, by simpa using hm, ?_⟩
      · rw [flatten_cons, take_append, take_of_length_le hl, htake, take_succ_cons,
          flatten_cons, append_assoc]
      · exact htorn.imp_right fun ⟨l', hl', h⟩ => ⟨l', mem_cons_of_mem _ hl', h⟩
      intro i hi
      rcases i with _ | i
      · simp
      have := hiff i (by simpa using hi)
      rw [take_succ_cons, flatten_cons, length_append]
      omega
    · refine ⟨0, l.take k, ?_, .inr ⟨l, mem_cons_self, take_prefix _ _, ?_⟩, Nat.zero_le _, ?_⟩
      · rw [flatten_cons, take_append_of_le_length (by omega)]
        rfl
      · rw [length_take]
        omega
      intro i hi
      cases i with
      | zero => simp
      | succ =>
        rw [take_succ_cons, flatten_cons, length_append]
        omega

end Storage
