import Mathlib

/-!
# Codecs

A `Codec` writes values as byte strings and reads them back. Every countable type has one, and a codec can be given
the bytes of some values: `Codec.withTable`.
-/

structure Codec (α : Type) where
  encode : α → List UInt8
  decode : List UInt8 → Option α
  decode_encode : ∀ a, decode (encode a) = some a

instance Codec.countable_string : Countable String := by
  have hchar : Countable Char := Function.Injective.countable (f := Char.toNat) fun _ _ h => Char.toNat_inj.mp h
  exact Function.Injective.countable (f := String.toList) fun _ _ h => String.toList_inj.mp h

namespace Codec

variable {α : Type}

/-- A value is written as its number in an enumeration. -/
noncomputable def ofCountable (α : Type) [Countable α] : Codec α where
  encode a := List.replicate ((exists_injective_nat α).choose a) 0
  decode bytes := Function.partialInv (exists_injective_nat α).choose bytes.length
  decode_encode a := by
    rw [List.length_replicate, Function.partialInv_left (exists_injective_nat α).choose_spec]

/-- The values of the table are written as it says; none of its byte strings begins with zero. -/
def withTable [DecidableEq α] (c : Codec α) (table : List (α × List UInt8)) (hnodup : (table.map Prod.snd).Nodup)
    (hhead : ∀ x ∈ table, x.2.head? ≠ some 0) : Codec α where
  encode a := (table.find? (·.1 = a)).elim (0 :: c.encode a) Prod.snd
  decode bytes := (table.find? (·.2 = bytes)).elim (c.decode bytes.tail) fun x => some x.1
  decode_encode a := by
    cases hfind : table.find? (·.1 = a) with
    | none =>
      have hnone : table.find? (·.2 = 0 :: c.encode a) = none :=
        List.find?_eq_none.mpr fun x hx h => hhead x hx (by simp_all)
      rw [Option.elim_none, hnone, Option.elim_none, List.tail_cons, c.decode_encode]
    | some x =>
      have hx := List.mem_of_find?_eq_some hfind
      obtain ⟨y, hy⟩ : ∃ y, table.find? (·.2 = x.2) = some y :=
        Option.isSome_iff_exists.mp (List.find?_isSome.mpr ⟨x, hx, decide_eq_true rfl⟩)
      have hbytes : y.2 = x.2 := by simpa using List.find?_some hy
      have hvalue : x.1 = a := by simpa using List.find?_some hfind
      rw [Option.elim_some, hy, Option.elim_some,
        List.inj_on_of_nodup_map hnodup (List.mem_of_find?_eq_some hy) hx hbytes, hvalue]

end Codec
