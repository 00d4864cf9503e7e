import Fxp.Replay

/-!
# Matching as steps

Every function that trades is a sequence of steps: a print edits the two orders and reports them, a prevented
self-match cuts them. `Shadow` ties a matching function in the middle of its work to the call in progress that has
made the same steps, with the reports of everything so far already out.
-/

namespace Fxp

open OrderBook List

variable {R : Type} {x : Context R}

abbrev Path (x : Context R) : Progress R → Progress R → Prop := Relation.ReflTransGen (Step x)

theorem Path.inv {w w'} (h : Path x w w') (hinv : Inv x w) : Inv x w' := by
  induction h with
  | refl => exact hinv
  | tail _ hstep ih => exact hstep.inv ih

theorem Path.frame {w w'} (h : Path x w w') : Frame x w.call.engine w'.call.engine := by
  induction h with
  | refl => exact ⟨rfl, rfl, ⟨rfl, rfl⟩, fun _ => rfl, fun _ _ _ => ⟨rfl, rfl⟩, fun _ => .inr rfl⟩
  | tail _ hlast ih =>
    have hstep := hlast.frame
    refine ⟨hstep.ids.trans ih.ids, hstep.schedule.trans ih.schedule, ?_, fun h =>
      (hstep.lastSeen h).trans (ih.lastSeen h),
      fun op hreq hop => ?_, fun hnot => ?_⟩
    · exact ⟨hstep.status.1.trans ih.status.1, hstep.status.2.trans ih.status.2⟩
    · obtain ⟨huntil, hphase⟩ := hstep.session op hreq hop
      exact ⟨huntil.trans (ih.session op hreq hop).1, hphase.trans (ih.session op hreq hop).2⟩
    rcases hstep.callUntil hnot with h | h
    · exact .inl h
    · exact h ▸ ih.callUntil hnot

/-- A book without the record of prevented self-matches, which the execution takes over. -/
def OrderBook.calm (b : OrderBook) : OrderBook := { b with stp := {} }

section calm

variable {b b' : OrderBook} {o : Order} {left : Option (Nat × Nat)} {traded filled : Nat}

theorem OrderBook.calm_eq (h : b.stp = {}) : b.calm = b := by rw [calm, ← h]

theorem OrderBook.WF.of_calm (h : b.calm.WF) : b.WF :=
  ⟨h.noEmpty, h.placed, h.distinct, h.found, h.positive, h.shown, h.unknown, h.kept⟩

theorem OrderBook.Edited.calm (h : Edited b o left traded b') : Edited b.calm o left traded b'.calm :=
  ⟨⟨h.lookup, h.displayed, h.cumFilled, h.symbol, h.kept⟩, h.elsewhere, h.others, h.here, h.noEmpty⟩

end calm

section single

variable {w : Progress R} {o : Order} {q n : Nat} {b : OrderBook}

theorem Inv.on_book (hinv : Inv x w) (ho : w.call.engine.book.orderLookup[o.orderId]? = some o) :
    ∃ st, w.call.engine.states[o.orderId]? = some st ∧ Agrees o.orderId o st ∧ o.orderType = .limit ∧
    x.known o.traits := by
  obtain ⟨-, st, hst, hagrees, hholds, hknown⟩ := (hinv.tracked o.orderId).of_mem
    (Progress.mem_book.mpr ho)
  exact ⟨st, hst, hagrees, hholds, hknown⟩

theorem Edit.told {k : Edit} {px : Int} {st : OrderState R} (h : k.rest o = (k.state o px st).leaves) :
    if k.rest o = 0 then k.rest o = 0 else k.state o px st = k.state o px st ∧ k.rest o = (k.state o px st).leaves := by
  split
  · assumption
  · exact ⟨rfl, h⟩

theorem not_stpReason_empty : ¬ StpReason "" := by
  rintro ⟨mode, h⟩
  cases mode <;> exact absurd h (by decide)

theorem fill_isTerminal (n : Nat) : (if n = 0 then OrderStatus.filled else .partiallyFilled).isTerminal =
    decide (n = 0) := by
  split
  · rename_i h
    exact (decide_eq_true h).symm
  · rename_i h
    exact (decide_eq_false h).symm

theorem Edit.cut_cum (o : Order) (n : Nat) (st : OrderState R) :
    (if n = 0 then st else Edit.state o 0 st (.cut n)).cumQty = (Edit.state o 0 st (.cut n)).cumQty ∧
      (if n = 0 then st else Edit.state o 0 st (.cut n)).notional = (Edit.state o 0 st (.cut n)).notional := by
  split <;> exact ⟨rfl, rfl⟩

theorem Edit.told_cut {st : OrderState R} {ev : ReportEvent}
    (h : if n = 0 then ev.leaves = 0 else ev.leaves = (Edit.state o 0 st (.cut n)).leaves) :
    if Edit.rest o (.cut n) = 0 then ev.leaves = 0 else
      (if n = 0 then st else Edit.state o 0 st (.cut n)) = Edit.state o 0 st (.cut n) ∧
        ev.leaves = (if n = 0 then st else Edit.state o 0 st (.cut n)).leaves := by
  simp only [Edit.rest]
  split
  · rename_i hn
    rwa [if_pos hn] at h
  rename_i hn
  rw [if_neg hn] at h
  exact ⟨rfl, h⟩

theorem Step.fillBook (hinv : Inv x w) (ho : w.call.engine.book.orderLookup[o.orderId]? = some o)
    (hedit : Edited w.call.engine.book o (afterFill o (o.quantity - q) (w.call.engine.book.visible o - q)) q b)
    (hstp : b.stp = {}) (hq : 0 < q) (hle : q ≤ w.call.engine.book.visible o) (ts : Time) (px : Int)
    (hprinted : w.printed = [] ∨ w.printed = [(px, q)]) :
    Step x w
      { w with
        call := Call.applyFill ts px q false (w.call.onEngine fun e => { e with book := b }) o.orderId
        fills := w.fills ++ fillChange o q :: refreshChange o (o.quantity - q) (w.call.engine.book.visible o - q)
        printed := w.printed ++ [(px, q)] } := by
  obtain ⟨st, hst, hagrees, -⟩ := hinv.on_book ho
  have hquantity : q ≤ o.quantity := le_trans hle (hinv.book.visible_eq ho).2.2.1
  have hleaves : o.quantity - q = (Edit.state o px st (.fill q)).leaves := by
    have := hagrees.quantity
    simp only [OrderState.leaves, Edit.state]
    omega
  have hshift : Shift x w o.orderId o (.fill q) .book _ := .book ho hedit hstp ⟨hq, hle⟩ (fun _ h => by cases h)
    (fun h => by cases h) (fun _ h => by cases h)
  rw [@Call.applyFill_eq R o.orderId o st (w.call.onEngine fun e => { e with book := b }) hst hagrees ts px q false
    hquantity]
  have hstep := @Step.edit R x w _ .book o.orderId o (.fill q) st (Edit.state o px st (.fill q)) px st.outputTx
    { execType := .filled
      status := if o.quantity - q = 0 then .filled else .partiallyFilled
      lastPx := px
      lastQty := q
      leaves := o.quantity - q } ts hst hshift ⟨ExecutionType.noConfusion, ExecutionType.noConfusion⟩ ⟨rfl, rfl, rfl⟩
    (fun _ => hprinted) ⟨rfl, rfl⟩ (Edit.told hleaves) (fill_isTerminal _) (absurd · not_stpReason_empty)
  simp only [Edit.restedChanges, Edit.stpChanges, append_nil] at hstep
  exact hstep

/-- What is left in transit of an edited order. -/
def Transit.edited (t : Transit) (k : Edit) : List Transit :=
  if k.rest t.order = 0 then [] else
    [{ order := t.order.withQuantity (k.rest t.order), filled := none, replaced := t.replaced, acked := true }]

theorem Shift.of_perm {t tr k} (ht : w.transit.Perm (t :: tr))
    (hwithin : k.Within t.order t.order.quantity) (hauction : ∀ q, k ≠ .auction q)
    (hcut : ∀ n, k = .cut n → ∃ t', x.known t' ∧ Traits.Conflict t.order.traits t') :
    ∃ l, l.Perm (t.edited k ++ tr) ∧ Shift x w t.order.orderId t.order k .transit { w with transit := l } := by
  obtain ⟨pre, post, hsplit⟩ := append_of_mem (ht.mem_iff.mpr mem_cons_self)
  refine ⟨pre ++ t.edited k ++ post, ?_, .transit hsplit rfl rfl hwithin hauction hcut⟩
  have hrest : (pre ++ post).Perm tr := by
    rw [hsplit] at ht
    exact (perm_middle.symm.trans ht).cons_inv
  rw [append_assoc]
  exact (perm_append_comm_assoc ..).trans (hrest.append_left _)

theorem Step.fillTransit (hinv : Inv x w) {t : Transit} {tr : List Transit} (ht : w.transit.Perm (t :: tr))
    (hq : 0 < q) (hle : q ≤ t.order.quantity) (ts : Time) (px : Int)
    (hprinted : w.printed = [] ∨ w.printed = [(px, q)]) :
    ∃ l, l.Perm (t.edited (.fill q) ++ tr) ∧
      Step x w
        { w with
          call := Call.applyFill ts px q false w.call t.order.orderId
          transit := l
          printed := w.printed ++ [(px, q)] } := by
  obtain ⟨st, hst, hagrees, -⟩ := hinv.in_transit (ht.mem_iff.mpr mem_cons_self)
  obtain ⟨l, hl, hshift⟩ := @Shift.of_perm R x w t tr (.fill q) ht ⟨hq, hle⟩ (fun _ h => by cases h)
    fun _ h => by cases h
  have hleaves : t.order.quantity - q = (Edit.state t.order px st (.fill q)).leaves := by
    have := hagrees.quantity
    simp only [OrderState.leaves, Edit.state]
    omega
  refine ⟨l, hl, ?_⟩
  rw [Call.applyFill_eq hst hagrees ts px false hle]
  exact Step.edit hst hshift ⟨ExecutionType.noConfusion, ExecutionType.noConfusion⟩ ⟨rfl, rfl, rfl⟩
    (fun _ => hprinted) ⟨rfl, rfl⟩ (Edit.told hleaves) (fill_isTerminal _) (absurd · not_stpReason_empty)

theorem Step.cutTransit (hinv : Inv x w) {t : Transit} {tr : List Transit} (ht : w.transit.Perm (t :: tr))
    (hn : n < t.order.quantity) (hcut : ∃ t', x.known t' ∧ Traits.Conflict t.order.traits t') (ts : Time)
    {e : StpEvent} (he : e.orderId = t.order.orderId)
    (hact : e.action = if n = 0 then .canceled else .restated (t.order.quantity - n)) :
    ∃ l, l.Perm (t.edited (.cut n) ++ tr) ∧ Step x w { w with call := Call.reportStp ts w.call e, transit := l } := by
  obtain ⟨st, hst, _, -⟩ := hinv.in_transit (ht.mem_iff.mpr mem_cons_self)
  obtain ⟨l, hl, hshift⟩ := @Shift.of_perm R x w t tr (.cut n) ht hn (fun _ h => by cases h) fun _ _ => hcut
  obtain ⟨ev, hreport, hev, htells, hleaves, hstatus⟩ := Call.reportStp_eq he hst ts hact
  refine ⟨l, hl, ?_⟩
  have hstep := @Step.edit R x w _ .transit t.order.orderId t.order (.cut n) st
    (if n = 0 then st else Edit.state t.order 0 st (.cut n)) 0 st.outputTx ev ts hst hshift hev htells
    (fun h => absurd rfl h) (Edit.cut_cum t.order n st) (Edit.told_cut hleaves) hstatus
    (fun _ => ⟨n, rfl⟩)
  rw [Edit.prints, append_nil] at hstep
  rw [hreport]
  exact hstep

theorem Step.cutBook (hinv : Inv x w) (ho : w.call.engine.book.orderLookup[o.orderId]? = some o)
    (hedit : Edited w.call.engine.book o (afterCut n (w.call.engine.book.visible o)) 0 b) (hstp : b.stp = {})
    (hn : n < o.quantity) (hcut : ∃ t, x.known t ∧ Traits.Conflict o.traits t) (ts : Time) {e : StpEvent}
    (he : e.orderId = o.orderId)
    (hact : e.action = if n = 0 then .canceled else .restated (o.quantity - n)) :
    Step x w
      { w with
        call := Call.reportStp ts (w.call.onEngine fun e => { e with book := b }) e
        stp := w.stp ++ Edit.stpChanges o (w.call.engine.book.visible o) (.cut n) } := by
  obtain ⟨st, hst, _, -⟩ := hinv.on_book ho
  obtain ⟨ev, hreport, hev, htells, hleaves, hstatus⟩ := @Call.reportStp_eq R o.orderId o st
    (w.call.onEngine fun e => { e with book := b }) e n he hst ts hact
  rw [hreport]
  have hshift : Shift x w o.orderId o (.cut n) .book _ := .book ho hedit hstp hn (fun _ h => by cases h)
    (fun h => by cases h) (fun _ _ => hcut)
  have hstep := @Step.edit R x w _ .book o.orderId o (.cut n) st (if n = 0 then st else Edit.state o 0 st (.cut n)) 0
    st.outputTx ev ts hst hshift hev htells (fun h => absurd rfl h) (Edit.cut_cum o n st)
    (Edit.told_cut hleaves) hstatus (fun _ => ⟨n, rfl⟩)
  simp only [Edit.restedChanges, Edit.fillChanges, Edit.prints, append_nil] at hstep
  exact hstep

theorem OrderBook.HeadEdit.same {b b' rest} (hwf : b.WF)
    (hq : b.queue o.side o.price = o :: rest)
    (h : HeadEdit b o rest (afterCut o.quantity (b.visible o)) 0 false b') : SameBook b b' := by
  obtain ⟨-, -, ho, -⟩ := hwf.head hq
  obtain ⟨hdisp, _, hle, -⟩ := hwf.visible_eq ho
  have hz : o.quantity ≠ 0 := by omega
  have hself : o.withQuantity o.quantity = o := rfl
  have hleft : afterCut o.quantity (b.visible o) = some (o.quantity, b.visible o) := by
    rw [afterCut, if_neg hz, Nat.min_eq_left hle]
  rw [hleft] at h
  refine ⟨fun s p => ?_, fun id => ?_, fun id => ?_, fun id => ?_, h.noEmpty, h.kept⟩
  · by_cases hsp : o.side = s ∧ o.price = p
    · obtain ⟨rfl, rfl⟩ := hsp
      rw [h.queue, hq, Option.elim_some, settled, if_neg hz, if_neg (by decide), hself]
    · exact h.elsewhere s p hsp
  · rw [h.lookup]
    split
    · rename_i hid
      rw [← hid, ho, Option.map_some, hself]
    · rfl
  · rw [h.displayed]
    split
    · rename_i hid
      rw [← hid, hdisp, Option.map_some]
    · rfl
  · rw [h.cumFilled]
    split
    · exact Checked.wrapU32_of_lt (hwf.kept.filled_lt id)
    · rfl

theorem Path.cutHead (hinv : Inv x w) {rest} (hq : w.call.engine.book.queue o.side o.price = o :: rest)
    (hedit : HeadEdit w.call.engine.book o rest (afterCut n (w.call.engine.book.visible o)) 0 false b)
    (hstp : b.stp = {}) (hn : n ≤ o.quantity) (hcut : ∃ t, x.known t ∧ Traits.Conflict o.traits t) (ts : Time)
    (opposing : String) (mode : StpMode) (beforeFill : Nat) :
    Path x w
      { w with
        call := (cutEvent o n opposing mode beforeFill).foldl (Call.reportStp ts)
          (w.call.onEngine fun e => { e with book := b })
        stp := w.stp ++ changesOf (w.call.engine.book.cutUpdate o o.price n) } := by
  obtain ⟨-, -, ho, -⟩ := hinv.book.head hq
  by_cases hlt : n < o.quantity
  · have hchanges : changesOf (w.call.engine.book.cutUpdate o o.price n) =
        Edit.stpChanges o (w.call.engine.book.visible o) (.cut n) := by
      simp only [cutUpdate, hlt, and_true, Edit.stpChanges]
      split <;> rfl
    rw [hchanges, cutEvent, if_pos hlt]
    exact .single (Step.cutBook hinv ho hedit.toEdited hstp hlt hcut ts rfl rfl)
  · have heq : n = o.quantity := by omega
    subst heq
    have hchanges : changesOf (w.call.engine.book.cutUpdate o o.price o.quantity) = [] := by
      simp [cutUpdate]
    rw [hchanges, cutEvent, if_neg hlt, append_nil]
    exact .single
      (.note ⟨rfl, hedit.same hinv.book hq, hstp, ⟨[], by simp, fun o h => by cases h⟩, fun _ h => h⟩ fun _ => rfl)

end single

end Fxp
