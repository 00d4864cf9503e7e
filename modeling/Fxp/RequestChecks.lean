import Fxp.Progress

/-!
# Checked requests

What a request is known to satisfy once no check of the engine has a reason to reject it.
-/

namespace Fxp

open Checked

variable {R : Type}

theorem entryReason_none {phase} {full : Bool} {ty : OrderType} {tif}
    (h : entryReason phase full ty tif = none) :
    phase ≠ .closed ∧ (tif = .atClose → ty ≠ .stop ∧ ty ≠ .stopLimit) ∧
      (isCall phase = true → tif ≠ .ioc ∧ tif ≠ .fok) := by
  unfold entryReason at h
  split at h
  · cases h
  rename_i hclosed
  split at h
  · cases h
  split at h
  · cases h
  rename_i hstop
  split at h
  · cases h
  split at h
  · cases h
  rename_i hcall
  refine ⟨hclosed, fun ht => ⟨fun hty => ?_, fun hty => ?_⟩, fun hc => ⟨fun ht => ?_, fun ht => ?_⟩⟩
  · exact hstop ⟨.inr ht, .inl hty⟩
  · exact hstop ⟨.inr ht, .inr hty⟩
  · exact hcall ⟨hc, .inl ht⟩
  · exact hcall ⟨hc, .inr ht⟩

theorem isCall_iff {phase} : isCall phase = true ↔ phase ≠ .continuous ∧ phase ≠ .closed := by
  cases phase <;> simp [isCall]

theorem icebergReason_none {display : Int} {total : Nat} {ty : OrderType} {tif} {auctions : Bool} {lot : Nat}
    (h : icebergReason display total ty tif auctions lot = none) :
    0 ≤ display ∧ (display ≠ 0 → asU32 display ≤ total ∧ auctions = false ∧ ty = .limit ∧
      (tif = .day ∨ tif = .gtc ∨ tif = .gtd)) := by
  unfold icebergReason at h
  by_cases hneg : display < 0
  · simp [hneg] at h
  rw [if_neg hneg] at h
  refine ⟨by omega, fun hd => ?_⟩
  rw [if_neg hd] at h
  split at h
  · cases h
  rename_i hsize
  split at h
  · cases h
  rename_i hkind
  rw [not_or] at hsize
  rw [not_or, not_or, not_not, not_not] at hkind
  exact ⟨by omega, by simpa using hkind.1, hkind.2.1, hkind.2.2⟩

/-- A new order that no check rejects. -/
structure Admissible (e : Engine R) (order : NewOrderSingle) (side : OrderSide) (ty : OrderType) (tif : TimeInForce)
    (mode : StpMode) : Prop where
  enums : parseOrderEnums order = .ok (side, ty, tif)
  positive : 0 < order.quantity
  fresh : e.states[order.orderId]? = none
  stp : ∃ explicit, parseStp order.stpMode e.stpDefault = .ok (mode, explicit)
  entry : entryReason e.phase e.auctionsEnabled ty tif = none
  iceberg : icebergReason order.displayQuantity.toInt (asU32 order.quantity.toInt) ty tif e.auctionsEnabled
    e.symbolRules.lotSize = none

theorem invalidReason_none {e : Engine R} {order : NewOrderSingle} {now : Time}
    (h : Call.invalidReason e order now = none) : ∃ side ty tif mode, Admissible e order side ty tif mode := by
  unfold Call.invalidReason at h
  rcases henums : parseOrderEnums order with reason | r
  · simp [henums] at h
  obtain ⟨side, ty, tif⟩ := r
  simp only [henums, Option.or_eq_none_iff] at h
  obtain ⟨hentry, -, -, -, hiceberg⟩ := h
  split at hentry
  · cases hentry
  rename_i hq
  split at hentry
  · cases hentry
  split at hentry
  · cases hentry
  rename_i hfresh
  rcases hstp : parseStp order.stpMode e.stpDefault with _ | m
  · simp [hstp] at hentry
  obtain ⟨mode, explicit⟩ := m
  simp only [hstp] at hentry
  split at hentry
  · cases hentry
  rw [Option.or_eq_none_iff] at hentry
  refine ⟨side, ty, tif, mode, henums, ?_, ?_, ⟨explicit, hstp⟩, hentry.1, hiceberg⟩
  · exact Int32.not_le.mp hq
  · exact Maps.contains_eq_false_iff.mp (Bool.eq_false_of_not_eq_true hfresh)

section admissible

variable {e : Engine R} {order : NewOrderSingle} {side : OrderSide} {ty : OrderType} {tif : TimeInForce}
  {mode : StpMode}

theorem asU32_int32 {n : Int32} (h : 0 ≤ n.toInt) : asU32 n.toInt < 2 ^ 31 := by
  have := n.toInt_lt
  unfold asU32
  omega

theorem asU32_int32_lt (n : Int32) : asU32 n.toInt < 2 ^ 32 := by
  unfold asU32
  omega

private theorem parseSide_eq {value side} (h : parseSide value = .ok side) : value = sideToProto side := by
  unfold parseSide at h
  split at h
  · rename_i hv
    cases h
    exact hv
  split at h
  · rename_i hv
    cases h
    exact hv
  split at h <;> cases h

private theorem parseOrderEnums_side (h : parseOrderEnums order = .ok (side, ty, tif)) :
    order.side = sideToProto side := by
  unfold parseOrderEnums at h
  obtain ⟨_, hs, h⟩ := bind_eq_ok.mp h
  obtain ⟨_, -, h⟩ := bind_eq_ok.mp h
  obtain ⟨_, -, h⟩ := bind_eq_ok.mp h
  cases h
  exact parseSide_eq hs

theorem Admissible.orderOf (h : Admissible e order side ty tif mode) (now : Time) (owner : R) (arrival : Nat) :
    ∃ o, Call.orderOf e order now = .ok o ∧ o.orderId = order.orderId ∧ o.orderType = ty ∧ o.timeInForce = tif ∧
      Agrees o.orderId o (OrderState.new order o.quantity owner arrival) ∧
      (o.displayQuantity ≠ 0 → e.auctionsEnabled = false) := by
  obtain ⟨_, hstp⟩ := h.stp
  obtain ⟨hdisplay, hiceberg⟩ := icebergReason_none h.iceberg
  have hpos : 0 < order.quantity.toInt := Int32.lt_iff_toInt_lt.mp h.positive
  have hzero : asU32 order.displayQuantity.toInt ≠ 0 → order.displayQuantity.toInt ≠ 0 := by
    intro hne heq
    rw [heq] at hne
    exact hne rfl
  refine ⟨_, by simp only [Call.orderOf, h.enums, hstp]; rfl, rfl, rfl, rfl, ?_, fun hd => ?_⟩
  · refine ⟨rfl, rfl, ?_, asU32_int32 (by omega), asU32_int32_lt _, rfl, ?_, ?_, ?_, asU32_int32_lt _, fun hd => ?_⟩
    · have := order.quantity.toInt_lt
      simp only [asU32]
      omega
    · exact (parseOrderEnums_side h.enums).symm
    · simp only [OrderState.new, h.enums]
    · simp only [OrderState.new, max_eq_left hdisplay]
    · exact (hiceberg (hzero hd)).2.2
  · exact (hiceberg (hzero hd)).2.1

end admissible

/-- A replace that `preflight` lets through. -/
structure Replaceable (e : Engine R) (m : CancelReplaceMsg R) (st : OrderState R) (newTif : Option TimeInForce) :
    Prop where
  phase : e.phase ≠ .closed
  state : e.states[m.orderId]? = some st
  sender : st.sender = m.sender
  held : e.heldClose[m.orderId]? = none
  fresh : m.newOrderId ≠ m.orderId → e.states[m.newOrderId]? = none
  parse : parseReplaceTimeInForce m.newTimeInForce = .ok newTif
  entry : entryReason e.phase e.auctionsEnabled (e.liveType m.orderId) (newTif.getD st.timeInForce) = none
  display : e.replaceDisplayReason m st (newTif.getD st.timeInForce) = none

theorem replaceReason_none {e : Engine R} {m : CancelReplaceMsg R} {now : Time} (h : e.replaceReason m now = none) :
    ∃ st newTif, Replaceable e m st newTif := by
  unfold Engine.replaceReason at h
  split at h
  · cases h
  rename_i hphase
  rcases hst : e.states[m.orderId]? with _ | st
  · simp [hst] at h
  simp only [hst] at h
  split at h
  · cases h
  rename_i hsender
  split at h
  · cases h
  rename_i hheld
  split at h
  · cases h
  rename_i hdup
  rcases hparse : parseReplaceTimeInForce m.newTimeInForce with _ | newTif
  · simp [hparse] at h
  simp only [hparse, Option.or_eq_none_iff] at h
  refine ⟨st, newTif, hphase, hst, not_not.mp hsender, ?_, fun hne => ?_, hparse, h.1, h.2.2.2⟩
  · exact Maps.contains_eq_false_iff.mp (Bool.eq_false_of_not_eq_true hheld)
  · exact Maps.contains_eq_false_iff.mp (Bool.eq_false_of_not_eq_true fun hc => hdup ⟨hne, hc⟩)

end Fxp
