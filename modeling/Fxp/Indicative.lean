import Fxp.Rejects

/-!
# The indicative uncross

In a call the engine publishes what an auction would do now. `Engine.Tidy` says that this is up to date whenever no
call of the engine is on.
-/

namespace Fxp

open List

variable {R : Type} {x : Context R} {w w' : Progress R} {base : List (Output R)}

section informs

variable {c c' : Call R}

theorem Call.Informs.silent {l} (h : c.Informs base) (hout : c'.out = c.out ++ l)
    (hl : ∀ o ∈ l, o.opens = false ∧ infoOf o = none)
    (hlast : c'.engine.lastIndicative = c.engine.lastIndicative) : c'.Informs base := by
  refine h.extend hout (fun o ho => (hl o ho).1) fun _ hr => .inl ⟨hlast ▸ hr, ?_⟩
  exact filterMap_eq_nil_iff.mpr fun o ho => (hl o ho).2

theorem Shift.informs {id o k pl} (h : Shift x w id o k pl w')
    (hw : w.call.Informs base) : w'.call.Informs base := by
  obtain ⟨hengine, hout, -⟩ := h.frame
  refine hw.silent (l := []) (by rw [hout, append_nil]) (fun _ ho => absurd ho not_mem_nil) ?_
  rw [hengine]

theorem Step.informs (h : Step x w w') (hw : w.call.Informs base) : w'.call.Informs base := by
  have hone : ∀ {o : Output R}, o.opens = false ∧ infoOf o = none → ∀ o' ∈ [o], o'.opens = false ∧
      infoOf o' = none := by
    intro o ho o' ho'
    rwa [mem_singleton.mp ho']
  cases h with
  | edit _ hshift => exact (hshift.informs hw).silent rfl (hone ⟨rfl, rfl⟩) rfl
  | swap _ hshift =>
    refine (hshift.informs hw).silent (l := [_, _]) (append_assoc ..) (fun o ho => ?_) rfl
    rcases mem_cons.mp ho with rfl | ho
    · exact ⟨rfl, rfl⟩
    · exact hone ⟨rfl, rfl⟩ o ho
  | @enter _ _ _ _ _ ack =>
    cases ack
    · exact hw
    · exact hw.silent (l := [_]) rfl (hone ⟨rfl, rfl⟩) rfl
  | reject | print => exact hw.silent (l := [_]) rfl (hone ⟨rfl, rfl⟩) rfl
  | flush hmd =>
    refine hw.silent rfl (fun o ho => ?_) rfl
    obtain ⟨_, rfl, -⟩ := hmd o ho
    exact ⟨rfl, rfl⟩
  | note hquiet => exact hquiet.informs base hw
  | setPhase =>
    show (Call.setPhase ..).Informs base
    unfold Call.setPhase
    split
    · exact hw
    -- nothing has been published in the new phase
    intro r hr
    cases hr
  | _ => exact hw

end informs

/-- In a call phase the indicative is the uncross of the orders that are in the book and queued now, and the last
auction info sent to whoever has listened carries its price, volume and signed imbalance. -/
theorem indicative_current {cfg : Settings} {e : Engine R} {out : List (Output R)}
    (h : Run anyCall (Engine.new cfg) e out)
    (hcall : isCall e.phase = true) :
    ∃ orders r, e.auctionOrders = .ok orders ∧ Enlisted e orders ∧ uncross orders e.lastTradePrice = .ok r ∧
      e.lastIndicative = some r ∧ ∀ pre o post, out = pre ++ o :: post → o.opens = true →
        ∃ info, (post.filterMap infoOf).getLast? = some info ∧ info.Carries r := by
  obtain ⟨orders, r, horders, hr, hlast⟩ := (h.tidy (.new ..)).fresh hcall
  obtain ⟨hsound, hinforms⟩ := Run.invariant (J := fun base w => w.call.Informs base) (.new ..)
    (fun r _ pre o post hsplit => by simp [idle] at hsplit)
    (fun _ _ _ hstep hw => hstep.informs hw)
    (fun hmarket hout hw => hw.silent (hout.trans (append_nil _).symm) (fun _ ho => absurd ho not_mem_nil)
      (by rw [show (idle false _).call.engine = _ from hmarket]; rfl))
    (fun hw r hr => by simpa [idle] using hw r hr) h
  obtain ⟨_, horders', henlisted⟩ := auctionOrders_spec (hsound.inv none [])
  cases horders.symm.trans horders'
  refine ⟨orders, r, horders, henlisted, hr, hlast, fun pre o post hsplit => ?_⟩
  exact hinforms r hlast pre o post (by rw [← hsplit]; exact append_nil out)

/-- A bid for 10 and an offer of 4 in the opening call: the last auction info says that 4 trade and 6 are left to buy.
-/
theorem indicative_current_matched : ∃ (e : Engine Nat) (out pre post : List (Output Nat)) (o : Output Nat)
    (info : AuctionInfo), Run anyCall (Engine.sample (some .sample)) e out ∧ isCall e.phase = true ∧
      out = pre ++ o :: post ∧ o.opens = true ∧ (post.filterMap infoOf).getLast? = some info ∧
        info.indicativeVolume = 4 ∧ info.imbalance = 6 := by
  obtain ⟨e, out, hrun, hcall, hopens, hlast⟩ := Run.of_computed anyCall (Engine.sample (some .sample))
    [orderAt 150 "A" "a" .buy 101 10, (.at 155, .subscribe 1),
      orderAt 160 "B" "b" .sell 99 4]
    (fun e out => isCall e.phase = true ∧ out.any Output.opens = true ∧
      e.lastIndicative.any (fun r => r.volume = 4 ∧ r.imbalance = 6) = true) (by decide +kernel)
  obtain ⟨o, ho, hopen⟩ := any_eq_true.mp hopens
  obtain ⟨pre, post, rfl⟩ := append_of_mem ho
  obtain ⟨_, hr', hsizes⟩ := (Option.any_eq_true _ _).mp hlast
  obtain ⟨_, _, -, -, -, hr, hsent⟩ := indicative_current hrun hcall
  cases hr.symm.trans hr'
  obtain ⟨info, hinfo, -, hvolume, himbalance⟩ := hsent pre o post rfl hopen
  have hsizes := of_decide_eq_true hsizes
  refine ⟨e, _, pre, post, o, info, hrun, hcall, rfl, hopen, hinfo, ?_, himbalance.trans hsizes.2⟩
  rw [hvolume, hsizes.1]

/-- Past an overflow two orders of the id `G` rest, and the indicative leaves one out: `105` would trade, with `95`
left. -/
theorem indicative_misses_order : ∃ e out, Calls anyCall (Engine.sample (some .sample)) e out ∧
    isCall e.phase = true ∧ (e.book.queue .sell 100).map (·.quantity) = [5] ∧
    (e.book.queue .sell 101).map (·.quantity) = [100] ∧ (e.book.queue .buy 101).map (·.quantity) = [200] ∧
    e.lastIndicative.map (fun r => (r.volume, r.imbalance)) = some (100, 100) :=
  Calls.of_computed anyCall (Engine.sample (some .sample))
    (orphanCalls ++ [orderAt 173052 "G" "d" .sell 101 100, orderAt 259350 "J" "c" .buy 101 200]) _ (by decide +kernel)

end Fxp
