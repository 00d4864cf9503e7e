import Fxp.Fix.Session

/-!
# The directories of the session stores

`FileStoreFactory` keeps every session in a directory of its own. Its name joins the three parts of the session's key
with `+`, a part being escaped byte by byte.
-/

namespace Fxp.Fix

open List

/-- What stands for itself at index `i` of a part: `[A-Za-z0-9-]`, and a dot that is not the first byte. -/
def isPlain (i : Nat) (c : UInt8) : Bool :=
  97 ≤ c && c ≤ 122 || 65 ≤ c && c ≤ 90 || 48 ≤ c && c ≤ 57 || c == 45 || c == 46 && 0 < i

def upperHex (n : Nat) : UInt8 := .ofNat (if n < 10 then 48 + n else 55 + n)

/-- The bytes written for the byte `c` at index `i`: itself or `_%02X`. -/
def escape (i : Nat) (c : UInt8) : Bytes :=
  if isPlain i c then [c] else [95, upperHex (c.toNat / 16), upperHex (c.toNat % 16)]

/-- The loop of `pathSafe` from index `i` on. -/
def pathSafeFrom (i : Nat) : Bytes → Bytes
  | [] => []
  | c :: s => escape i c ++ pathSafeFrom (i + 1) s

def pathSafe (s : Bytes) : Bytes := pathSafeFrom 0 s

/-- The name of the directory that `FileStoreFactory` opens under its root. -/
def storeDir (k : SessionKey) : Bytes :=
  intercalate [43] [pathSafe k.beginString, pathSafe k.senderCompID, pathSafe k.targetCompID]

/-- Letters, digits and `.`, `-`, `_`, `+`. -/
def isNameByte (c : UInt8) : Bool := isPlain 1 c || c == 95 || c == 43

private theorem storeDir_eq (k : SessionKey) :
    storeDir k = pathSafe k.beginString ++ 43 :: (pathSafe k.senderCompID ++ 43 :: pathSafe k.targetCompID) := by
  simp [storeDir, intercalate]

private theorem upperHex_inj : ∀ m < 16, ∀ n < 16, upperHex m = upperHex n → m = n := by decide

private theorem upperHex_name : ∀ n < 16, isNameByte (upperHex n) = true := by decide

private theorem toNat_div_lt (c : UInt8) : c.toNat / 16 < 16 := by
  have := c.toNat_lt
  omega

private theorem upperHex_pair {c d : UInt8} (hhigh : upperHex (c.toNat / 16) = upperHex (d.toNat / 16))
    (hlow : upperHex (c.toNat % 16) = upperHex (d.toNat % 16)) : c = d := by
  have := upperHex_inj _ (toNat_div_lt c) _ (toNat_div_lt d) hhigh
  have := upperHex_inj _ (Nat.mod_lt _ (by decide)) _ (Nat.mod_lt _ (by decide)) hlow
  apply UInt8.toNat_inj.mp
  omega

private theorem not_isPlain_underscore (i : Nat) : ¬isPlain i 95 := by simp [isPlain]

private theorem not_isPlain_plus (i : Nat) : ¬isPlain i 43 := by simp [isPlain]

/-- An escape, at whatever index, ends where it can be seen to end. -/
theorem escape_append_inj {i j : Nat} {c d : UInt8} {s t : Bytes} (h : escape i c ++ s = escape j d ++ t) :
    c = d ∧ s = t := by
  unfold escape at h
  split at h <;> split at h <;> simp only [cons_append, nil_append, cons.injEq] at h
  · exact h
  · rename_i hc _
    exact absurd (h.1 ▸ hc) (not_isPlain_underscore i)
  · rename_i hd
    exact absurd (h.1 ▸ hd) (not_isPlain_underscore j)
  · exact ⟨upperHex_pair h.2.1 h.2.2.1, h.2.2.2⟩

private theorem escape_append_ne (i : Nat) (c : UInt8) (s t : Bytes) : escape i c ++ s ≠ 43 :: t := by
  unfold escape
  intro h
  split at h <;> simp only [cons_append, nil_append, cons.injEq] at h
  · rename_i hc
    exact absurd (h.1 ▸ hc) (not_isPlain_plus i)
  · exact absurd h.1 (by decide)

/-- A part ends at the first separator. -/
theorem pathSafeFrom_append_inj {i j : Nat} {a b s t : Bytes}
    (h : pathSafeFrom i a ++ 43 :: s = pathSafeFrom j b ++ 43 :: t) : a = b ∧ s = t := by
  induction a generalizing i j b with
  | nil =>
    cases b with
    | nil => exact ⟨rfl, (cons.inj h).2⟩
    | cons d b =>
      rw [pathSafeFrom, pathSafeFrom, append_assoc] at h
      exact (escape_append_ne _ _ _ _ h.symm).elim
  | cons c a ih =>
    rw [pathSafeFrom, append_assoc] at h
    cases b with
    | nil => exact (escape_append_ne _ _ _ _ h).elim
    | cons d b =>
      rw [pathSafeFrom, append_assoc] at h
      obtain ⟨rfl, htail⟩ := escape_append_inj h
      obtain ⟨rfl, hrest⟩ := ih htail
      exact ⟨rfl, hrest⟩

private theorem storeDir_injective : Function.Injective storeDir := by
  intro k l h
  -- with a separator at the end the last part is like the others
  have h := congrArg (· ++ [43]) h
  simp only [storeDir_eq, append_assoc, cons_append] at h
  obtain ⟨hbegin, h⟩ := pathSafeFrom_append_inj h
  obtain ⟨hsender, h⟩ := pathSafeFrom_append_inj h
  obtain ⟨htarget, _⟩ := pathSafeFrom_append_inj h
  cases k
  cases l
  simp_all

private theorem escape_name (i : Nat) (c x : UInt8) (hx : x ∈ escape i c) : isNameByte x := by
  unfold escape at hx
  split at hx
  · rename_i hc
    rw [mem_singleton.mp hx]
    grind [isPlain, isNameByte]
  · simp only [mem_cons, not_mem_nil, or_false] at hx
    rcases hx with rfl | rfl | rfl
    · rfl
    · exact upperHex_name _ (toNat_div_lt c)
    · exact upperHex_name _ (Nat.mod_lt _ (by decide))

private theorem pathSafeFrom_name (i : Nat) (s : Bytes) : ∀ x ∈ pathSafeFrom i s, isNameByte x := by
  induction s generalizing i with
  | nil => exact fun x hx => absurd hx not_mem_nil
  | cons c s ih =>
    intro x hx
    rcases mem_append.mp hx with hx | hx
    · exact escape_name i c x hx
    · exact ih (i + 1) x hx

private theorem storeDir_name (k : SessionKey) : ∀ x ∈ storeDir k, isNameByte x := by
  intro x hx
  rw [storeDir_eq] at hx
  simp only [mem_append, mem_cons] at hx
  rcases hx with hx | rfl | hx | rfl | hx
  · exact pathSafeFrom_name _ _ x hx
  · rfl
  · exact pathSafeFrom_name _ _ x hx
  · rfl
  · exact pathSafeFrom_name _ _ x hx

private theorem storeDir_head (k : SessionKey) : (storeDir k).head? ≠ some 46 := by
  rw [storeDir_eq]
  unfold pathSafe
  cases k.beginString with
  | nil => simp [pathSafeFrom]
  | cons c s =>
    unfold pathSafeFrom escape
    split
    · rename_i hc
      intro h
      cases h
      simp [isPlain] at hc
    · exact fun h => absurd h (by simp)

/-- Different sessions have different directories, each named by letters, digits and `.-_+` and none of them hidden or
a relative path. -/
theorem store_directories_distinct :
    (∀ k l : SessionKey, k ≠ l → storeDir k ≠ storeDir l) ∧
      ∀ k, (∀ x ∈ storeDir k, isNameByte x) ∧ (storeDir k).head? ≠ some 46 :=
  ⟨fun _ _ hne h => hne (storeDir_injective h), fun k => ⟨storeDir_name k, storeDir_head k⟩⟩

end Fxp.Fix
