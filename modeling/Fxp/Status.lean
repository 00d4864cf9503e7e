import Fxp.Accounting

/-!
# The status of orders

The status of an order is remembered from the reports of the calls. For a live order it is the last report about it,
and what that report says is the report state of the order.
-/

namespace Fxp

open Checked List

variable {R : Type}
variable {l : List (Output R)} {id : String} {r : Report} {st : OrderState R}

/-- The last report about `id` that is not a reject. -/
def lastReport (id : String) (rs : List Report) : Option Report :=
  rs.reverse.find? fun r => r.orderId = id && r.executionType ≠ .rejected

private theorem lastReport_append (id : String) (rs rs' : List Report) :
    lastReport id (rs ++ rs') = (lastReport id rs').or (lastReport id rs) := by
  rw [lastReport, reverse_append, find?_append]
  rfl

private theorem lastReport_singleton (id : String) (r : Report) :
    lastReport id [r] = if r.orderId = id ∧ r.executionType ≠ .rejected then some r else none := by
  by_cases h : r.orderId = id ∧ r.executionType ≠ .rejected
  · rw [if_pos h]
    simp [lastReport, h]
  rw [if_neg h]
  rw [not_and] at h
  simp only [lastReport, reverse_cons, reverse_nil, nil_append, find?_cons, find?_nil]
  split
  · rename_i hr
    rw [Bool.and_eq_true, decide_eq_true_eq, decide_eq_true_eq] at hr
    exact absurd hr.2 (h hr.1)
  · rfl

/-- A report shows the report state of a live order. -/
structure Shows (st : OrderState R) (r : Report) : Prop where
  leaves : r.leavesQuantity = asI32 st.leaves
  cumQuantity : r.cumQuantity = asI32 st.cumQty
  side : r.side = st.side
  type : r.executionType ≠ .replaced

/-- Every live order was told its report state, unless it has just been entered. -/
structure Progress.Told (ids : Nat → String) (base : List (Output R)) (w : Progress R) : Prop where
  live : ∀ (id : String) (st : OrderState R), w.call.engine.states[id]? = some st →
    (∃ t ∈ w.transit, t.order.orderId = id ∧ t.acked = false) ∨
      ∃ r, lastReport id (reportsOf (base ++ w.call.out)) = some r ∧ Shows st r
  replaced : ∀ r ∈ reportsOf (base ++ w.call.out), r.executionType = .replaced → r.origOrderId = r.orderId
  source : w.call.engine.ids = ids
  issued : (reportsOf (base ++ w.call.out)).map Report.executionId = (List.range w.call.engine.issued).map ids

/-- An order in transit is unacknowledged, or all with its id are acknowledged. -/
theorem Progress.acked_or (w : Progress R) (id : String) : (∃ t ∈ w.transit, t.order.orderId = id ∧ t.acked = false) ∨
    ∀ t ∈ w.transit, t.order.orderId = id → t.acked = true := by
  by_cases hun : ∃ t ∈ w.transit, t.order.orderId = id ∧ t.acked = false
  · exact .inl hun
  refine .inr fun t ht hid => ?_
  by_contra hfalse
  exact hun ⟨t, ht, hid, by simpa using hfalse⟩

namespace Progress.Told

variable {ids : Nat → String} {base : List (Output R)} {w w' : Progress R}

private theorem extend (hw : w.Told ids base) (hout : w'.call.out = w.call.out ++ l)
    (hlive : ∀ (id : String) (st : OrderState R), w'.call.engine.states[id]? = some st →
      (∃ t ∈ w'.transit, t.order.orderId = id ∧ t.acked = false) ∨
        (∃ r, lastReport id (reportsOf l) = some r ∧ Shows st r) ∨
        (lastReport id (reportsOf l) = none ∧ w.call.engine.states[id]? = some st ∧
          ∀ t ∈ w.transit, t.order.orderId = id → t.acked = true))
    (hreplaced : ∀ r ∈ reportsOf l, r.executionType = .replaced → r.origOrderId = r.orderId)
    (hids : w'.call.engine.ids = w.call.engine.ids ∧
      (reportsOf l).map Report.executionId = (List.range' w.call.engine.issued (reportsOf l).length).map
        w.call.engine.ids ∧
      w'.call.engine.issued = w.call.engine.issued + (reportsOf l).length) : w'.Told ids base := by
  have hreports : reportsOf (base ++ w'.call.out) = reportsOf (base ++ w.call.out) ++ reportsOf l := by
    rw [hout, ← append_assoc, reportsOf_append]
  refine ⟨fun id st hst => ?_, ?_, hids.1.trans hw.source, ?_⟩
  · rw [hreports, lastReport_append]
    rcases hlive id st hst with hunacked | ⟨r, hr, hshows⟩ | ⟨hnone, hst', hacked⟩
    · exact .inl hunacked
    · exact .inr ⟨r, by rw [hr]; rfl, hshows⟩
    rcases hw.live id st hst' with ⟨t, ht, hid, hfalse⟩ | htold
    · rw [hacked t ht hid] at hfalse
      cases hfalse
    · rw [hnone, Option.none_or]
      exact .inr htold
  · rw [hreports]
    exact forall_mem_append.mpr ⟨hw.replaced, hreplaced⟩
  · have hrange := @range'_append_1 0 w.call.engine.issued (reportsOf l).length
    rw [Nat.zero_add] at hrange
    rw [hreports, map_append, hw.issued, hids.2.1, hids.2.2, hw.source, ← map_append, range_eq_range',
      range_eq_range', hrange]

private theorem silent (hw : w.Told ids base) (hout : w'.call.out = w.call.out ++ l)
    (hl : reportsOf l = []) (hstates : w'.call.engine.states = w.call.engine.states)
    (htransit : ∀ t ∈ w.transit, t.acked = false → t ∈ w'.transit)
    (hids : w'.call.engine.ids = w.call.engine.ids ∧ w'.call.engine.issued = w.call.engine.issued) :
    w'.Told ids base := by
  refine hw.extend hout (fun id _ hst => ?_) ?_ ?_
  · rw [hl]
    rw [hstates] at hst
    rcases w.acked_or id with ⟨t, ht, hid, hacked⟩ | hacked
    · exact .inl ⟨t, htransit t ht hacked, hid, hacked⟩
    · exact .inr (.inr ⟨rfl, hst, hacked⟩)
  · rw [hl]
    exact fun _ hr => absurd hr not_mem_nil
  · rw [hl]
    exact ⟨hids.1, rfl, hids.2⟩

private theorem tell (hw : w.Told ids base) {owner new}
    (hout : w'.call.out = w.call.out ++ [.executionReport owner r]) (hid : r.orderId = id)
    (hstates : ∀ id' : String, w'.call.engine.states[id']? = if id = id' then new else w.call.engine.states[id']?)
    (hshows : ∀ st, new = some st → r.executionType ≠ .rejected ∧ Shows st r)
    (htransit : ∀ t ∈ w.transit, t.order.orderId ≠ id → t.acked = false → t ∈ w'.transit)
    (hreplaced : r.executionType ≠ .replaced)
    (hids : w'.call.engine.ids = w.call.engine.ids ∧ r.executionId = w.call.engine.ids w.call.engine.issued ∧
      w'.call.engine.issued = w.call.engine.issued + 1) : w'.Told ids base := by
  have hreports : reportsOf [(.executionReport owner r : Output R)] = [r] := rfl
  refine hw.extend hout (fun id' st hst => ?_) ?_ ?_
  · rw [hreports, lastReport_singleton]
    rw [hstates id'] at hst
    by_cases heq : id = id'
    · rw [if_pos heq] at hst
      obtain ⟨htype, hshow⟩ := hshows st hst
      exact .inr (.inl ⟨r, if_pos ⟨hid.trans heq, htype⟩, hshow⟩)
    rw [if_neg heq] at hst
    rcases w.acked_or id' with ⟨t, ht, hid', hacked⟩ | hacked
    · exact .inl ⟨t, htransit t ht (fun h => heq (h.symm.trans hid')) hacked, hid', hacked⟩
    · exact .inr (.inr ⟨if_neg fun h => heq (hid.symm.trans h.1), hst, hacked⟩)
  · rw [hreports]
    intro r' hr' htype
    rw [mem_singleton.mp hr'] at htype
    exact absurd htype hreplaced
  · rw [hreports]
    refine ⟨hids.1, ?_, hids.2.2⟩
    simp [hids.2.1]

end Progress.Told

section steps

variable {x : Context R} {ids : Nat → String} {base : List (Output R)} {w w' : Progress R}

theorem Shift.transit_kept {w₁ pl o k} (h : Shift x w id o k pl w₁)
    {t} (ht : t ∈ w.transit) (hid : t.order.orderId ≠ id) : t ∈ w₁.transit := by
  cases h with
  | @transit _ _ _ ht₀ ho hid₀ =>
    rw [ht₀] at ht
    rcases mem_append.mp ht with hpre | hpost
    · simp [hpre]
    rcases mem_cons.mp hpost with rfl | hpost
    · exact absurd (by rw [ho]; exact hid₀) hid
    · simp [hpost]
  | _ => exact ht

theorem Step.told (h : Step x w w') (hw : w.Told ids base) : w'.Told ids base := by
  have hids := h.frame.ids
  cases h.reported with
  | silent hout hl hstates hissued htransit => exact hw.silent hout hl hstates htransit ⟨hids, hissued⟩
  | edited _ hshift hev hrst _ _ hout hstates hissued htransit =>
    refine hw.tell hout rfl hstates (fun st' hst' => ?_) (fun t ht hid _ => htransit ▸ hshift.transit_kept ht hid) hev.2
      ⟨hids, rfl, hissued⟩
    split at hrst
    · rename_i hrest
      rw [if_pos hrest] at hst'
      cases hst'
    rename_i hrest
    rw [if_neg hrest, Option.some.injEq] at hst'
    rw [← hst', ← hrst.1]
    exact ⟨hev.1, by rw [← hrst.2]; rfl, rfl, rfl, hev.2⟩
  | @entered _ _ _ _ st ack _ _ _ _ hagrees _ hout hstates hissued htransit =>
    cases ack with
    | false =>
      refine hw.extend hout (fun id st hst => ?_) (fun r hr => absurd hr not_mem_nil) ⟨hids, rfl, hissued⟩
      rw [hstates] at hst
      rw [htransit]
      split at hst
      · rename_i hid
        exact .inl ⟨_, mem_append_right _ (mem_singleton_self _), hagrees.orderId.trans hid, rfl⟩
      rcases w.acked_or id with ⟨t, ht, h⟩ | hacked
      · exact .inl ⟨t, mem_append_left _ ht, h⟩
      · exact .inr (.inr ⟨rfl, hst, hacked⟩)
    | true =>
      refine hw.tell hout rfl hstates (fun st' hst' => ?_) (fun t ht _ _ => htransit ▸ mem_append_left _ ht) nofun
        ⟨hids, rfl, hissued⟩
      cases hst'
      exact ⟨nofun, rfl, rfl, rfl, nofun⟩
  | @swapped m _ st' ts _ _ _ _ _ hout hstates hissued htransit =>
    obtain ⟨r₁, hr₁⟩ : ∃ r, r = w.call.engine.nextReport 0 m.orderId (some st')
      { execType := .replaced, status := .replaced, leaves := st'.leaves, origOrderId := m.orderId } ts := ⟨_, rfl⟩
    obtain ⟨r₂, hr₂⟩ : ∃ r, r = w.call.engine.nextReport 1 m.newOrderId (some st')
      { execType := .new, status := .new, leaves := st'.leaves, origOrderId := m.orderId } ts := ⟨_, rfl⟩
    rw [← hr₁, ← hr₂] at hout
    have hreports : reportsOf [(.executionReport m.outputTx r₁ : Output R), .executionReport m.outputTx r₂] =
        [r₁] ++ [r₂] := rfl
    have hid₁ : r₁.orderId = m.orderId := by rw [hr₁]; rfl
    have hid₂ : r₂.orderId = m.newOrderId := by rw [hr₂]; rfl
    have htype₂ : r₂.executionType = .new := by rw [hr₂]; rfl
    refine hw.extend hout (fun id _ hst₁ => ?_) ?_ ?_
    · rw [hreports, lastReport_append, lastReport_singleton, lastReport_singleton, hid₁, hid₂, htype₂]
      rw [hstates] at hst₁
      split at hst₁
      · rename_i hid
        cases hst₁
        refine .inr (.inl ⟨r₂, by rw [if_pos ⟨hid, by decide⟩]; rfl, ?_⟩)
        rw [hr₂]
        exact ⟨rfl, rfl, rfl, nofun⟩
      · rename_i hnew'
        split at hst₁
        · cases hst₁
        rename_i hold'
        refine .inr (.inr ⟨?_, hst₁, fun _ ht' => ?_⟩)
        · rw [if_neg fun h => hnew' h.1, if_neg fun h => hold' h.1]
          rfl
        · rw [htransit] at ht'
          cases ht'
    · rw [hreports]
      intro r hr htype
      rcases mem_cons.mp hr with rfl | hr
      · rw [hr₁]
        rfl
      · rw [mem_singleton.mp hr, htype₂] at htype
        cases htype
    · rw [hreports, hr₁, hr₂]
      exact ⟨hids, rfl, hissued⟩
  | rejected _ hev hout hstates hissued htransit =>
    refine hw.extend hout (fun id st hst => ?_) (fun r hr htype => ?_) ⟨hids, rfl, hissued⟩
    · rw [hstates] at hst
      rw [htransit]
      refine (w.acked_or id).imp_right fun hacked => .inr ⟨?_, hst, hacked⟩
      exact (lastReport_singleton _ _).trans (if_neg fun h => h.2 hev)
    · rw [mem_singleton.mp hr] at htype
      cases hev.symm.trans htype

end steps

/-- What is remembered of a report: one of a replaced order closes it. -/
def Report.remembered (r : Report) : Report :=
  if r.origOrderId ≠ "" ∧ r.executionType = .replaced then
    { r with orderStatus := .replaced, leavesQuantity := 0 }
  else r

theorem Report.remembered_executionId (r : Report) : r.remembered.executionId = r.executionId := by
  unfold Report.remembered
  split <;> rfl

theorem Report.remembered_orderId (r : Report) : r.remembered.orderId = r.orderId := by
  unfold Report.remembered
  split <;> rfl

theorem Shows.remembered (h : Shows st r) : r.remembered = r :=
  if_neg fun hr => h.type hr.2

/-- The status of `id` after a report. -/
def noteReport (id : String) (v r : Report) : Report :=
  if r.executionType = .rejected ∨ r.orderId ≠ id ∨ v.executionId = r.executionId then v else r.remembered

/-- A report changes the status of its order, if that has one. -/
theorem Engine.rememberReport_status (e : Engine R)
    (hr : r.executionType = .replaced → r.origOrderId = r.orderId) (id : String) :
    (e.rememberReport r).statusHistory[id]? = e.statusHistory[id]?.map fun s => (s.1, noteReport id s.2 r) := by
  unfold Engine.rememberReport
  by_cases hrejected : r.executionType = .rejected
  · simp [hrejected, noteReport]
  rw [if_neg hrejected]
  by_cases hid : r.orderId = id
  · subst hid
    cases hknown : e.statusHistory[r.orderId]? with
    | none =>
      simp only [Option.any_none, Bool.false_eq_true, if_false, Option.map_none]
      split
      · rename_i hreplaced
        rw [hr hreplaced.2, hknown]
        exact hknown
      · exact hknown
    | some s =>
      obtain ⟨_, v⟩ := s
      by_cases hsame : v.executionId = r.executionId
      · simp [hknown, hsame, noteReport]
      simp only [Option.any_some, hsame, decide_false, Bool.false_eq_true, if_false, Option.map_some, noteReport,
        hrejected, ne_eq, not_true_eq_false, or_self, Report.remembered]
      split
      · rename_i hreplaced
        simp [hr hreplaced.2]
      · simp
  · have hnote : ∀ v, noteReport id v r = v := fun v => if_pos (.inr (.inl hid))
    simp only [hnote, Prod.mk.eta, Option.map_id']
    split
    · rfl
    cases hknown : e.statusHistory[r.orderId]? with
    | none =>
      simp only
      split
      · rename_i hreplaced
        rw [hr hreplaced.2, hknown]
      · rfl
    | some =>
      simp only
      split
      · rename_i hreplaced
        simp [hr hreplaced.2, hid]
      · simp [hid]

/-- The status `v` is what is remembered of the report with its execution id, if `rs` has that. -/
def Recalls (rs : List Report) (v : Report) : Prop := ∀ r ∈ rs, v.executionId = r.executionId → v = r.remembered

section recalls

variable {all rs : List Report} {id : String} {v : Report}

private theorem eq_of_executionId (hall : (all.map Report.executionId).Nodup) {r'} (hr : r ∈ all) (hr' : r' ∈ all)
    (h : r.executionId = r'.executionId) : r = r' := inj_on_of_nodup_map hall hr hr' h

theorem Recalls.of_mem (hall : (all.map Report.executionId).Nodup) (hr : r ∈ all) : Recalls all r.remembered := by
  intro r' hr' h
  rw [r.remembered_executionId] at h
  rw [eq_of_executionId hall hr hr' h]

theorem Recalls.note (hv : Recalls all v) (hr : r ∈ all) :
    noteReport id v r = if r.orderId = id ∧ r.executionType ≠ .rejected then r.remembered else v := by
  unfold noteReport
  by_cases hmatch : r.orderId = id ∧ r.executionType ≠ .rejected
  · rw [if_pos hmatch]
    split
    · rename_i h
      rcases h with h | h | h
      · exact absurd h hmatch.2
      · exact absurd hmatch.1 h
      · exact hv r hr h
    · rfl
  · rw [if_neg hmatch, if_pos]
    rw [not_and_or, not_not] at hmatch
    exact hmatch.elim (fun h => .inr (.inl h)) .inl

/-- After a list of reports, the status of an order is the last of them about it. -/
theorem Recalls.foldl (hall : (all.map Report.executionId).Nodup) (hrs : ∀ r ∈ rs, r ∈ all) (hv : Recalls all v) :
    rs.foldl (noteReport id) v = (lastReport id rs).elim v Report.remembered := by
  induction rs generalizing v with
  | nil => rfl
  | cons r rs ih =>
    have hr := hrs r mem_cons_self
    have hlast : lastReport id (r :: rs) = (lastReport id rs).or (lastReport id [r]) := lastReport_append id [r] rs
    rw [foldl_cons, hv.note hr, hlast, lastReport_singleton]
    split
    · rw [ih (fun r hr => hrs r (mem_cons_of_mem _ hr)) (.of_mem hall hr)]
      cases lastReport id rs <;> rfl
    · rw [ih (fun r hr => hrs r (mem_cons_of_mem _ hr)) hv]
      cases lastReport id rs <;> rfl

theorem lastReport_mem (h : lastReport id rs = some r) :
    r ∈ rs ∧ r.orderId = id ∧ r.executionType ≠ .rejected := by
  have hmem := mem_of_find?_eq_some h
  have hr := find?_some h
  rw [Bool.and_eq_true, decide_eq_true_eq, decide_eq_true_eq] at hr
  exact ⟨mem_reverse.mp hmem, hr⟩

end recalls

theorem Engine.forget_status (e : Engine R) (n : Nat) (id : String) :
    (Loop.run Engine.forgetStep n e).statusHistory[id]? = e.statusHistory[id]? ∨
      ((Loop.run Engine.forgetStep n e).statusHistory[id]? = none ∧ ∃ s, e.statusHistory[id]? = some s ∧
        s.2.leavesQuantity = 0) := by
  refine Loop.run_induct (P := fun e' : Engine R => e'.statusHistory[id]? = e.statusHistory[id]? ∨
    (e'.statusHistory[id]? = none ∧ ∃ s, e.statusHistory[id]? = some s ∧ s.2.leavesQuantity = 0)) ?_ n (.inl rfl)
  intro e₁ e₂ he₁ hstep
  unfold Engine.forgetStep at hstep
  split at hstep
  · split at hstep
    · cases hstep
    rename_i id' exec rest _
    simp only at hstep
    split at hstep
    · rename_i hany
      cases hstep
      simp only [Maps.getElem?_erase]
      split
      · rename_i hid
        obtain ⟨s, hs, hP⟩ := Option.any_eq_true _ _ |>.mp hany
        rw [Bool.and_eq_true, decide_eq_true_eq, decide_eq_true_eq] at hP
        rw [hid] at hs
        rcases he₁ with he₁ | he₁
        · exact .inr ⟨rfl, s, he₁ ▸ hs, hP.2⟩
        · exact .inr ⟨rfl, he₁.2⟩
      · exact he₁
    · cases hstep
      exact he₁
  · cases hstep

/-- The status of an order after a call, unless it is closed and forgotten. -/
theorem Engine.rememberStatus_status (e : Engine R) {out all}
    (hall : (all.map Report.executionId).Nodup) (hout : ∀ r ∈ reportsOf out, r ∈ all)
    (hreplaced : ∀ r ∈ reportsOf out, r.executionType = .replaced → r.origOrderId = r.orderId) (id : String)
    (hstatus : ∀ s, e.statusHistory[id]? = some s → Recalls all s.2) :
    (e.rememberStatus out).statusHistory[id]? =
        e.statusHistory[id]?.map (fun s => (s.1, (lastReport id (reportsOf out)).elim s.2 Report.remembered)) ∨
      ((e.rememberStatus out).statusHistory[id]? = none ∧ ∃ s, e.statusHistory[id]? = some s ∧
        ((lastReport id (reportsOf out)).elim s.2 Report.remembered).leavesQuantity = 0) := by
  have hfold : ∀ (rs : List Report) (e : Engine R),
      (∀ r ∈ rs, r.executionType = .replaced → r.origOrderId = r.orderId) →
      (rs.foldl Engine.rememberReport e).statusHistory[id]? =
        e.statusHistory[id]?.map fun s => (s.1, rs.foldl (noteReport id) s.2) := by
    intro rs
    induction rs with
    | nil => intro e _; simp
    | cons r _ ih =>
      intro e hrs
      rw [foldl_cons, ih _ fun r hr => hrs r (mem_cons_of_mem _ hr),
        e.rememberReport_status (hrs r mem_cons_self), Option.map_map]
      rfl
  have hremembered : ((reportsOf out).foldl Engine.rememberReport e).statusHistory[id]? =
      e.statusHistory[id]?.map fun s => (s.1, (lastReport id (reportsOf out)).elim s.2 Report.remembered) := by
    rw [hfold _ e hreplaced]
    cases hs : e.statusHistory[id]? with
    | none => rfl
    | some s => rw [Option.map_some, Option.map_some, (hstatus s hs).foldl hall hout]
  rcases ((reportsOf out).foldl Engine.rememberReport e).forget_status
    (((reportsOf out).foldl Engine.rememberReport e).terminalHistory.length + 1) id with h | ⟨hnone, s, hs, hleaves⟩
  · exact .inl (h.trans hremembered)
  rw [hremembered] at hs
  obtain ⟨s₀, hs₀, rfl⟩ := Option.map_eq_some_iff.mp hs
  exact .inr ⟨hnone, s₀, hs₀, hleaves⟩

section histories

variable {x : Context R} {w w' : Progress R} {pre : List (Output R)}

theorem Progress.Mentioned.extend (hw : w.Mentioned id pre) (hout : w'.call.out = w.call.out ++ l)
    (hl : ∀ t ∈ w.transit, t.order.orderId = id → t.acked = false → t ∈ w'.transit ∨
      ∃ r ∈ reportsOf l, r.orderId = id) :
    w'.Mentioned id pre := by
  obtain ⟨l₀, hl₀, hw⟩ := hw
  refine ⟨l₀ ++ l, by rw [hout, hl₀, append_assoc], ?_⟩
  rw [filterMap_append]
  rcases hw with ⟨t, ht, hid, hacked⟩ | ⟨r, hr, hid⟩
  · rcases hl t ht hid hacked with ht' | ⟨r, hr, hid'⟩
    · exact .inl ⟨t, ht', hid, hacked⟩
    · exact .inr ⟨r, mem_append_right _ hr, hid'⟩
  · exact .inr ⟨r, mem_append_left _ hr, hid⟩

/-- An order that was entered is told about before it leaves transit. -/
theorem Step.mentioned (h : Step x w w') (hw : w.Mentioned id pre) : w'.Mentioned id pre := by
  cases h.reported with
  | silent hout _ _ _ htransit => exact hw.extend hout fun t ht _ hacked => .inl (htransit t ht hacked)
  | @edited _ _ id' _ _ _ _ _ _ _ _ _ hshift _ _ _ _ hout _ _ htransit =>
    refine hw.extend hout fun t ht hid _ => ?_
    by_cases hid' : id' = id
    · exact .inr ⟨_, mem_singleton_self _, hid'⟩
    · rw [htransit]
      exact .inl (hshift.transit_kept ht fun h => hid' (h.symm.trans hid))
  | entered _ _ _ _ _ hout _ _ htransit =>
    refine hw.extend hout fun t ht _ _ => .inl ?_
    rw [htransit]
    exact mem_append_left _ ht
  | swapped _ _ _ _ _ hout _ _ htransit =>
    refine hw.extend hout fun t ht => ?_
    rw [htransit] at ht
    cases ht
  | rejected _ _ hout _ _ htransit => exact hw.extend hout fun t ht _ _ => .inl (htransit ▸ ht)

theorem Path.mentioned (h : Path x w w') (hw : w.Mentioned id pre) : w'.Mentioned id pre := by
  induction h with
  | refl => exact hw
  | tail _ hlast ih => exact hlast.mentioned ih

theorem Step.introduced (h : Step x w w') (hst : w'.call.engine.states[id]? = some st) :
    (∃ st₀, w.call.engine.states[id]? = some st₀) ∨ w'.Mentioned id w.call.out := by
  cases h.reported with
  | silent _ _ hstates | rejected _ _ _ hstates => exact .inl ⟨st, hstates ▸ hst⟩
  | edited hst₁ _ _ _ _ _ _ hstates =>
    rw [hstates] at hst
    split at hst
    · rename_i hid
      exact .inl ⟨_, hid ▸ hst₁⟩
    · exact .inl ⟨st, hst⟩
  | @entered _ _ _ _ _ ack _ _ _ _ hagrees _ hout hstates _ htransit =>
    rw [hstates] at hst
    split at hst
    · rename_i hid
      refine .inr ⟨_, hout, ?_⟩
      cases ack with
      | false =>
        rw [htransit]
        exact .inl ⟨_, mem_append_right _ (mem_singleton_self _), hagrees.orderId.trans hid, rfl⟩
      | true => exact .inr ⟨_, mem_singleton_self _, hid⟩
    · exact .inl ⟨st, hst⟩
  | swapped _ _ _ _ _ hout hstates =>
    rw [hstates] at hst
    split at hst
    · rename_i hid
      exact .inr ⟨_, hout, .inr ⟨_, mem_cons_of_mem _ (mem_singleton_self _), hid⟩⟩
    split at hst
    · cases hst
    · exact .inl ⟨st, hst⟩

/-- What a step puts out is added at the end.  Without a request, its reports are about live orders. -/
theorem Step.out (h : Step x w w') : ∃ l, w'.call.out = w.call.out ++ l ∧
    (x.request = none → ∀ r ∈ reportsOf l, ∃ st, w.call.engine.states[r.orderId]? = some st) := by
  cases h.reported with
  | silent hout hl => exact ⟨_, hout, fun _ r hr => absurd hr (hl ▸ not_mem_nil)⟩
  | edited hst _ _ _ _ _ hout =>
    refine ⟨_, hout, fun _ r hr => ?_⟩
    rw [mem_singleton.mp hr]
    exact ⟨_, hst⟩
  | entered hreq _ _ _ _ hout | swapped hreq _ _ _ _ hout =>
    refine ⟨_, hout, fun h => ?_⟩
    cases hreq.symm.trans h
  | rejected hreq _ hout =>
    refine ⟨_, hout, fun h => ?_⟩
    rw [h] at hreq
    cases hreq

theorem Path.out (h : Path x w w') : ∃ l, w'.call.out = w.call.out ++ l ∧
    (x.request = none → ∀ r ∈ reportsOf l, ∃ st, w.call.engine.states[r.orderId]? = some st) := by
  induction h with
  | refl => exact ⟨[], (append_nil _).symm, fun _ r hr => absurd hr not_mem_nil⟩
  | @tail _ _ hpath hlast ih =>
    obtain ⟨l, hl, hlive⟩ := ih
    obtain ⟨l', hl', hlive'⟩ := hlast.out
    refine ⟨l ++ l', by rw [hl', hl, append_assoc], fun hreq r hr => ?_⟩
    rw [reportsOf_append] at hr
    rcases mem_append.mp hr with hold | hnew
    · exact hlive hreq r hold
    obtain ⟨_, hst⟩ := hlive' hreq r hnew
    rcases Path.terms hpath hst with ⟨st₀, hst₀, -⟩ | ⟨hop, -⟩
    · exact ⟨st₀, hst₀⟩
    · rw [hreq] at hop
      cases hop

theorem Path.introduced (h : Path x w w') (hst : w'.call.engine.states[id]? = some st) :
    (∃ st₀, w.call.engine.states[id]? = some st₀) ∨ w'.Mentioned id w.call.out := by
  induction h generalizing st with
  | refl => exact .inl ⟨st, hst⟩
  | @tail _ _ hpath hlast ih =>
    rcases hlast.introduced hst with ⟨_, hst₁⟩ | ⟨l', hl', hmention⟩
    · rcases ih hst₁ with hold | hmention
      · exact .inl hold
      · exact .inr (hlast.mentioned hmention)
    obtain ⟨l, hl, -⟩ := Path.out hpath
    refine .inr ⟨l ++ l', by rw [hl', hl, append_assoc], hmention.imp_right ?_⟩
    rintro ⟨r, hr, hid⟩
    rw [filterMap_append]
    exact ⟨r, mem_append_right _ hr, hid⟩

theorem Progress.Mentioned.told (h : w.Mentioned id pre) (htransit : w.transit = []) :
    ∃ l, w.call.out = pre ++ l ∧ ∃ r ∈ reportsOf l, r.orderId = id := by
  obtain ⟨l, hl, ⟨_, ht, -⟩ | hr⟩ := h
  · rw [htransit] at ht
    cases ht
  · exact ⟨l, hl, hr⟩

end histories

/-- Execution ids that tell the reports of an engine apart. -/
structure Distinct (ids : Nat → String) : Prop where
  injective : Function.Injective ids
  nonempty : ∀ n, ids n ≠ ""

/-- Between two calls the status of a live order is the last report about it, and every status is what is remembered
of a report. -/
structure Engine.Remembers (out : List (Output R)) (e : Engine R) : Prop where
  live : ∀ (id : String) (st : OrderState R), e.states[id]? = some st →
    ∃ owner r, e.statusHistory[id]? = some (owner, r) ∧ lastReport id (reportsOf out) = some r ∧ Shows st r
  known : ∀ (id owner : String) (v : Report), e.statusHistory[id]? = some (owner, v) →
    ∃ r ∈ reportsOf out, r.orderId = id ∧ r.executionType ≠ .rejected ∧ v = r.remembered

section remembers

variable {ids : Nat → String} {out : List (Output R)} {e e' : Engine R} {c c' : Call R}

theorem Progress.Told.nodup {w : Progress R} (h : w.Told ids out) (hids : Distinct ids) :
    ((reportsOf (out ++ w.call.out)).map Report.executionId).Nodup := by
  rw [h.issued]
  exact nodup_range.map hids.injective

theorem Progress.Told.executionId_ne {w : Progress R} (h : w.Told ids out) (hids : Distinct ids)
    (hr : r ∈ reportsOf (out ++ w.call.out)) : r.executionId ≠ "" := by
  have hmem : r.executionId ∈ (reportsOf (out ++ w.call.out)).map Report.executionId := mem_map_of_mem hr
  rw [h.issued] at hmem
  obtain ⟨n, -, hn⟩ := mem_map.mp hmem
  rw [← hn]
  exact hids.nonempty n

theorem Progress.Told.last (h : (idle false c).Told ids out) (hst : c.engine.states[id]? = some st) :
    ∃ r, lastReport id (reportsOf (out ++ c.out)) = some r ∧ Shows st r := by
  refine (h.live id st hst).resolve_left ?_
  rintro ⟨_, ht, -⟩
  cases ht

theorem Engine.Sound.leaves_ne (h : e.Sound) (hst : e.states[id]? = some st) :
    asI32 st.leaves ≠ 0 := by
  cases h.tracked id with
  | absent _ hnone =>
    have : e.states[id]? = none := hnone
    rw [this] at hst
    cases hst
  | live _ hst' hagrees =>
    have : e.states[id]? = some _ := hst'
    cases this.symm.trans hst
    exact hagrees.leaves_wire

/-- A call ends by remembering its reports: before, a status is of an earlier report, or empty while the call has one.
-/
theorem remember_reports (hids : Distinct ids) (htold : (idle false c).Told ids out) (hsound : c.engine.Sound)
    (hknown : ∀ (id owner : String) (v : Report), c.engine.statusHistory[id]? = some (owner, v) →
      (∃ r ∈ reportsOf (out ++ c.out), r.orderId = id ∧ r.executionType ≠ .rejected ∧ v = r.remembered) ∨
        (v.executionId = "" ∧ ∃ r, lastReport id (reportsOf c.out) = some r))
    (hlive : ∀ (id : String) (st : OrderState R), c.engine.states[id]? = some st →
      ∃ owner v, c.engine.statusHistory[id]? = some (owner, v) ∧
        (lastReport id (reportsOf c.out) = none → lastReport id (reportsOf out) = some v)) :
    (c.engine.rememberStatus c.out).Remembers (out ++ c.out) ∧
      ∀ (id : String) (s : String × Report), (c.engine.rememberStatus c.out).statusHistory[id]? = some s →
        c.engine.statusHistory[id]?.map Prod.fst = some s.1 := by
  have hall := htold.nodup hids
  have hsub : ∀ r ∈ reportsOf c.out, r ∈ reportsOf (out ++ c.out) := fun r hr => by
    rw [reportsOf_append]
    exact mem_append_right _ hr
  have hrecalls : ∀ (id : String) (s : String × Report), c.engine.statusHistory[id]? = some s →
      Recalls (reportsOf (out ++ c.out)) s.2 := by
    rintro id ⟨owner, v⟩ hs
    rcases hknown id owner v hs with ⟨r, hr, -, -, rfl⟩ | ⟨hempty, -⟩
    · exact .of_mem hall hr
    intro r hr heq
    have hne := htold.executionId_ne hids hr
    exact absurd (heq.symm.trans hempty) hne
  have hstatus := fun id => c.engine.rememberStatus_status hall hsub
    (fun r hr => htold.replaced r (hsub r hr)) id (hrecalls id)
  refine ⟨⟨fun id st hst => ?_, fun id owner v hv => ?_⟩, fun id s hs => ?_⟩
  · have hst' : c.engine.states[id]? = some st := by
      rw [← hst, Engine.rememberStatus_market c.engine c.out]
    obtain ⟨owner, v, hv, hnone⟩ := hlive id st hst'
    obtain ⟨r, hr, hshows⟩ := htold.last hst'
    have hr' := hr
    have hvalue : (lastReport id (reportsOf c.out)).elim v Report.remembered = r := by
      rw [reportsOf_append, lastReport_append] at hr'
      cases hlast : lastReport id (reportsOf c.out) with
      | none =>
        rw [hlast, hnone hlast, Option.none_or] at hr'
        exact Option.some.inj hr'
      | some =>
        rw [hlast, Option.some_or, Option.some.injEq] at hr'
        rw [Option.elim_some, hr', hshows.remembered]
    refine ⟨owner, r, ?_, hr, hshows⟩
    rcases hstatus id with h | ⟨-, _, hs, hleaves⟩
    · rw [h, hv, Option.map_some, hvalue]
    rw [hv, Option.some.injEq] at hs
    rw [← hs, hvalue, hshows.leaves] at hleaves
    exact absurd hleaves (hsound.leaves_ne hst')
  · rcases hstatus id with h | ⟨hnone, -⟩
    · rw [h] at hv
      obtain ⟨⟨_, v₀⟩, hs, heq⟩ := Option.map_eq_some_iff.mp hv
      cases heq
      cases hlast : lastReport id (reportsOf c.out) with
      | none =>
        rcases hknown id _ v₀ hs with hr | ⟨-, _, hr⟩
        · exact hr
        · rw [hlast] at hr
          cases hr
      | some r =>
        obtain ⟨hmem, hid, htype⟩ := lastReport_mem hlast
        exact ⟨r, hsub r hmem, hid, htype, rfl⟩
    · rw [hnone] at hv
      cases hv
  · rcases hstatus id with h | ⟨hnone, -⟩
    · rw [h] at hs
      obtain ⟨_, hs₀, rfl⟩ := Option.map_eq_some_iff.mp hs
      rw [hs₀]
      rfl
    · rw [hnone] at hs
      cases hs

theorem Progress.Told.market {a b : Bool} (h : (idle a c).Told ids out) (he : c.engine.SameMarket c'.engine)
    (hout : c'.out = c.out) : (idle b c').Told ids out := by
  refine h.silent (l := []) (hout.trans (append_nil _).symm) rfl ?_ (fun _ ht => absurd ht not_mem_nil) ?_
  · simp only [idle]
    rw [he]
  simp only [idle]
  rw [he]
  exact ⟨rfl, rfl⟩

theorem Progress.Told.next (h : (idle false c).Told ids out) :
    (idle false { engine := c.engine }).Told ids (out ++ c.out) := by
  have hnil : out ++ c.out ++ (idle false { engine := c.engine }).call.out = out ++ c.out := append_nil _
  refine ⟨fun id st hst => ?_, ?_, h.source, ?_⟩
  · rw [hnil]
    exact h.live id st hst
  · rw [hnil]
    exact h.replaced
  · rw [hnil]
    exact h.issued

theorem Path.told {x w w'} (h : Path x w w') (hw : w.Told ids out) : w'.Told ids out := by
  induction h with
  | refl => exact hw
  | tail _ hlast ih => exact hlast.told ih

theorem Engine.Remembers.tick {now} (hids : Distinct ids) (he : e.Sound)
    (htold : (idle false { engine := e }).Told ids out) (hrem : e.Remembers out) (htick : e.tick now = .ok c) :
    (idle false c).Told ids out ∧ c.engine.Remembers (out ++ c.out) ∧
      ∀ (id : String) (s : String × Report), c.engine.statusHistory[id]? = some s →
        e.statusHistory[id]?.map Prod.fst = some s.1 := by
  obtain ⟨c₁, ht⟩ := (tick_safe he now).of_ok htick
  have hsound₁ : c₁.engine.Sound := Inv.sound (ht.path.inv (he.inv none []))
  have htold₁ : (idle false c₁).Told ids out := Path.told ht.path htold
  have hstatus : c₁.engine.statusHistory = e.statusHistory := (Path.frame ht.path).status.1
  obtain ⟨hrem₁, howners⟩ := remember_reports hids htold₁ hsound₁
    (fun id owner v hv => by
      rw [hstatus] at hv
      obtain ⟨r, hr, hid⟩ := hrem.known id owner v hv
      exact .inl ⟨r, by rw [reportsOf_append]; exact mem_append_left _ hr, hid⟩)
    (fun id st hst => by
      rcases Path.terms ht.path (show (idle false c₁).call.engine.states[id]? = some st from hst) with ⟨st₀, hst₀, -⟩
        | hnew
      · obtain ⟨owner, r, hr, hlast, -⟩ := hrem.live id st₀ hst₀
        exact ⟨owner, r, by rw [hstatus, hr], fun _ => hlast⟩
      · cases hnew.1)
  rw [ht.call]
  refine ⟨htold₁.market (Engine.rememberStatus_market _ _) rfl, hrem₁, fun id s hs => ?_⟩
  rw [← hstatus]
  exact howners id s hs

private theorem acceptedIn_eq_true {out : List (Output R)} : Engine.acceptedIn id out = true ↔
    ∃ r, (reportsOf out).reverse.find? (·.orderId = id) = some r ∧ r.executionType ≠ .rejected := by
  unfold Engine.acceptedIn
  split
  · rename_i r hr
    refine ⟨fun h => ⟨r, hr, of_decide_eq_true h⟩, fun ⟨r', hr', htype⟩ => ?_⟩
    cases hr.symm.trans hr'
    exact decide_eq_true htype
  · rename_i hnone
    refine ⟨fun h => absurd h Bool.false_ne_true, fun ⟨r, hr, _⟩ => ?_⟩
    cases hnone.symm.trans hr

private theorem report_of_accepted {out : List (Output R)} (h : Engine.acceptedIn id out = true) :
    ∃ r ∈ reportsOf out, r.orderId = id ∧ r.executionType ≠ .rejected := by
  obtain ⟨r, hr, htype⟩ := acceptedIn_eq_true.mp h
  exact ⟨r, mem_reverse.mp (mem_of_find?_eq_some hr), of_decide_eq_true (find?_some hr :), htype⟩

theorem lastReport_of_accepted {out : List (Output R)} (h : Engine.acceptedIn id out = true) :
    ∃ r, lastReport id (reportsOf out) = some r := by
  obtain ⟨r, hr, hid, htype⟩ := report_of_accepted h
  cases hlast : lastReport id (reportsOf out) with
  | some r' => exact ⟨r', rfl⟩
  | none =>
    have hnone := find?_eq_none.mp hlast r (mem_reverse.mpr hr)
    simp [hid, htype] at hnone

private theorem acceptedIn_append {pre} (h : ∃ r ∈ reportsOf l, r.orderId = id) :
    Engine.acceptedIn id (pre ++ l) = Engine.acceptedIn id l := by
  obtain ⟨r, hr, hid⟩ := h
  rw [Engine.acceptedIn, Engine.acceptedIn, filterMap_append, reverse_append, find?_append]
  cases hfind : (l.filterMap Engine.reportOf).reverse.find? (·.orderId = id) with
  | none =>
    have hnone := find?_eq_none.mp hfind r (mem_reverse.mpr hr)
    simp [hid] at hnone
  | some => rfl

theorem accepted_of_noReject (hr : r ∈ reportsOf l) (hid : r.orderId = id)
    (hl : ∀ o ∈ l, isReject o = false) : Engine.acceptedIn id l = true := by
  rw [acceptedIn_eq_true]
  rcases hfind : (reportsOf l).reverse.find? (·.orderId = id) with _ | r'
  · have hnone := find?_eq_none.mp hfind r (mem_reverse.mpr hr)
    simp [hid] at hnone
  refine ⟨r', hfind, fun htype => ?_⟩
  obtain ⟨o, ho, hor⟩ := mem_filterMap.mp (mem_reverse.mp (mem_of_find?_eq_some hfind))
  have hreject := hl o ho
  cases o with
  | executionReport =>
    cases hor
    simp [isReject, htype] at hreject
  | _ => cases hor

theorem Op.bindStatus_status (op : Op R) (c : Call R) (id : String) :
    (op.bindStatus c).engine.statusHistory[id]? =
      if op.newId = some id ∧ Engine.acceptedIn id c.out = true then
        op.sender.map fun sender => (sender, (c.engine.statusHistory[id]?.map (·.2)).getD Engine.emptyReport)
      else c.engine.statusHistory[id]? := by
  have hbind : ∀ newId sender, (c.bindStatusOwner newId sender).engine.statusHistory[id]? =
      if some newId = some id ∧ Engine.acceptedIn id c.out = true then
        some (sender, (c.engine.statusHistory[id]?.map (·.2)).getD Engine.emptyReport)
      else c.engine.statusHistory[id]? := by
    intro newId sender
    simp only [Call.bindStatusOwner, Engine.bindStatusOwner, Option.some.injEq]
    by_cases hid : newId = id
    · subst hid
      by_cases haccepted : Engine.acceptedIn newId c.out = true
      · rw [if_pos haccepted, if_pos ⟨rfl, haccepted⟩]
        simp
      · rw [if_neg haccepted, if_neg fun h => haccepted h.2]
    · split
      · rw [if_neg fun h => hid h.1]
        simp [hid]
      · rw [if_neg fun h => hid h.1]
  cases op with
  | newOrder order => exact hbind order.orderId order.sender
  | cancelReplace m => exact hbind m.newOrderId m.sender
  | _ => rfl

/-- A request that brings an order is rejected and changes no order, or is answered without a reject. -/
theorem handle_brings {clock op} (hfresh : c.engine.Fresh) (hop : op.newId = some id)
    (h : c.handle clock op = .ok c') : (∃ id', Denied id' c c') ∨ NoReject c c' := by
  cases op with
  | newOrder => exact (handle_newOrder hfresh h).imp (fun h => ⟨_, h⟩) And.right
  | cancelReplace => exact (handle_cancelReplace hfresh h).imp (fun h => ⟨_, h⟩) fun h => h.1.noReject
  | _ => cases hop

theorem accepted_of_live {clock op} (hc : c.engine.Sound) (hfresh : c.engine.Fresh)
    (hrange : c.engine.inRange op) (hcall : c.handle clock op = .ok c') (hst : c'.engine.states[id]? = some st)
    (hnew : c.engine.states[id]? = none) :
    op.newId = some id ∧ op.sender = some st.sender ∧ Engine.acceptedIn id c'.out = true ∧
      Engine.acceptedIn id (c.since c') = true := by
  obtain ⟨c₁, hpath, hanswered⟩ := (hc.handle clock hrange).of_ok hcall
  obtain ⟨hmarket, hout⟩ := hanswered.market
  have hst₁ : (idle false c₁).call.engine.states[id]? = some st := by
    rw [← hst, hmarket]
    rfl
  obtain ⟨hop, hsender⟩ : op.newId = some id ∧ op.sender = some st.sender := by
    rcases Path.terms hpath hst₁ with ⟨_, hst₀, -⟩ | h
    · cases hnew.symm.trans hst₀
    · exact ⟨h.newId, h.sender⟩
  refine ⟨hop, hsender, ?_⟩
  rcases handle_brings hfresh hop hcall with ⟨_, hstates, -⟩ | ⟨l', hl', hno⟩
  · rw [hstates, hnew] at hst
    cases hst
  rcases Path.introduced hpath hst₁ with ⟨_, hst₀⟩ | hmention
  · cases hnew.symm.trans hst₀
  obtain ⟨l, hl, r, hr, hid⟩ := hmention.told rfl
  have hll : l' = l := append_cancel_left (hl'.symm.trans (hout.trans hl))
  have haccepted := accepted_of_noReject (hll ▸ hr) hid hno
  rw [Call.since_of_append hl', hl', acceptedIn_append ⟨r, hll ▸ hr, hid⟩]
  exact ⟨haccepted, haccepted⟩

/-- A request keeps the statuses up to date. An owner changes only if the request brings the order and was accepted.
-/
theorem Engine.Remembers.handle {clock : Clock} {op : Op R} (hids : Distinct ids) (hc : c.engine.Sound)
    (hfresh : c.engine.Fresh) (htold : (idle false c).Told ids out) (hrem : c.engine.Remembers (out ++ c.out))
    (hrange : c.engine.inRange op) (hcall : c.handle clock op = .ok c') :
    (idle false c').Told ids out ∧ c'.engine.Remembers (out ++ c'.out) ∧
      ∀ (id : String) (s : String × Report), c'.engine.statusHistory[id]? = some s →
        if op.newId = some id ∧ Engine.acceptedIn id c'.out = true then op.sender = some s.1
        else c.engine.statusHistory[id]?.map Prod.fst = some s.1 := by
  obtain ⟨c₁, hpath, hanswered⟩ := (hc.handle clock hrange).of_ok hcall
  have htold₁ : (idle false c₁).Told ids out := Path.told hpath htold
  have hsound₁ : c₁.engine.Sound := Inv.sound (hpath.inv (hc.inv (some op) c.out))
  have hstatus : c₁.engine.statusHistory = c.engine.statusHistory := (Path.frame hpath).status.1
  obtain ⟨l, hl, -⟩ := Path.out hpath
  have hl : c₁.out = c.out ++ l := hl
  obtain ⟨hmarket, hout⟩ := hanswered.market
  have hknown : ∀ (id owner : String) (v : Report), c.engine.statusHistory[id]? = some (owner, v) →
      ∃ r ∈ reportsOf (out ++ c₁.out), r.orderId = id ∧ r.executionType ≠ .rejected ∧ v = r.remembered := by
    intro id owner v hv
    obtain ⟨r, hr, h⟩ := hrem.known id owner v hv
    rw [hl, ← append_assoc, reportsOf_append]
    exact ⟨r, mem_append_left _ hr, h⟩
  have holder : ∀ id, lastReport id (reportsOf c₁.out) = none →
      lastReport id (reportsOf (out ++ c.out)) = lastReport id (reportsOf out) := by
    intro id hnone
    rw [hl, reportsOf_append, lastReport_append, Option.or_eq_none_iff] at hnone
    rw [reportsOf_append, lastReport_append, hnone.2]
    rfl
  refine ⟨htold₁.market hmarket hout, ?_⟩
  cases hanswered with
  | silent hreports hop =>
    have hsame : reportsOf (out ++ c'.out) = reportsOf (out ++ c.out) := by
      rw [reportsOf_append, reportsOf_append]
      exact congrArg _ hreports
    refine ⟨⟨fun id st hst => ?_, fun id owner v hv => ?_⟩, fun id s hs => ?_⟩
    · rcases Path.terms hpath (show (idle false c').call.engine.states[id]? = some st from hst) with ⟨st₀, hst₀, -⟩ |
        ⟨hnew, -⟩
      · obtain ⟨owner, r, hr, hlast, -⟩ := hrem.live id st₀ hst₀
        refine ⟨owner, r, by rw [hstatus, hr], by rw [hsame, hlast], ?_⟩
        obtain ⟨_, hr', _⟩ := htold₁.last hst
        rw [hsame, hlast, Option.some.injEq] at hr'
        rwa [hr']
      · have hnew' : op.newId = some id := hnew
        rw [hop] at hnew'
        cases hnew'
    · exact hknown id owner v (hstatus ▸ hv)
    have hnot : ¬ (op.newId = some id ∧ Engine.acceptedIn id c'.out = true) := by
      rw [hop]
      exact fun h => absurd h.1 (by simp)
    rw [if_neg hnot, ← hstatus, hs]
    rfl
  | remembered =>
    obtain ⟨hbind, hbout⟩ := op.bindStatus_market c₁
    have htold₂ : (idle false (op.bindStatus c₁)).Told ids out := htold₁.market hbind hbout
    have hbound := op.bindStatus_status c₁
    rw [← hbout, hstatus] at hbound
    obtain ⟨hrem', howners⟩ := remember_reports hids htold₂ (hsound₁.sameMarket hbind)
      (fun id owner v hv => by
        rw [hbout]
        rw [hbound id] at hv
        split at hv
        · rename_i haccepted
          obtain ⟨_, -, hv⟩ := Option.map_eq_some_iff.mp hv
          cases hs : c.engine.statusHistory[id]? with
          | none =>
            rw [hs] at hv
            cases hv
            rw [hbout] at haccepted
            exact .inr ⟨rfl, lastReport_of_accepted haccepted.2⟩
          | some s =>
            obtain ⟨owner₀, _⟩ := s
            rw [hs] at hv
            cases hv
            exact .inl (hknown id owner₀ _ hs)
        · exact .inl (hknown id owner v hv))
      (fun id st hst => by
        rw [hbound id]
        cases hold : c.engine.states[id]? with
        | some st₀ =>
          obtain ⟨owner, r, hr, hlast, -⟩ := hrem.live id st₀ hold
          split
          · rename_i hnew
            have hsender : ∃ sender, op.sender = some sender := by
              cases op <;> first | exact ⟨_, rfl⟩ | cases hnew.1
            obtain ⟨sender, hsender⟩ := hsender
            refine ⟨sender, r, ?_, fun hnone => ?_⟩
            · rw [hsender, hr]
              rfl
            · rw [← holder id (hbout ▸ hnone), hlast]
          · exact ⟨owner, r, hr, fun hnone => by rw [← holder id (hbout ▸ hnone), hlast]⟩
        | none =>
          have hst' : (op.bindStatus c₁).rememberStatus.engine.states[id]? = some st := by
            rw [← hst, Call.rememberStatus, Engine.rememberStatus_market (op.bindStatus c₁).engine
              (op.bindStatus c₁).out]
          obtain ⟨hnew, hsender, haccepted, -⟩ := accepted_of_live hc hfresh hrange hcall hst' hold
          rw [if_pos ⟨hnew, haccepted⟩, hsender]
          refine ⟨st.sender, _, rfl, fun hnone => ?_⟩
          obtain ⟨_, hr⟩ := lastReport_of_accepted haccepted
          cases hnone.symm.trans hr)
    refine ⟨hrem', fun id s hs => ?_⟩
    have howner := howners id s hs
    rw [hbound id] at howner
    show if op.newId = some id ∧ Engine.acceptedIn id (op.bindStatus c₁).out = true then op.sender = some s.1
      else c.engine.statusHistory[id]?.map Prod.fst = some s.1
    split
    · rename_i hnew
      rw [if_pos hnew, Option.map_map] at howner
      obtain ⟨_, hsender, heq⟩ := Option.map_eq_some_iff.mp howner
      rw [hsender, ← heq]
      rfl
    · rename_i hnot
      rwa [if_neg hnot] at howner

end remembers

/-- A public call with the engine before it, the end of its tick and its end. -/
structure Turn (R : Type) where
  before : Engine R
  clock : Clock
  op : Op R
  ticked : Call R
  done : Call R

namespace Turn

/-- The turn is a call that did not panic, and in which no order quantity overflowed. -/
structure Valid (t : Turn R) : Prop where
  tick : t.before.tick (t.clock .advance) = .ok t.ticked
  range : t.ticked.engine.inRange t.op
  handle : t.ticked.handle t.clock t.op = .ok t.done

/-- The reply to the request, without what the tick put out. -/
def reply (t : Turn R) : List (Output R) := t.ticked.since t.done

/-- The request brings the order `id` and its reply does not reject it. -/
def accepts (id : String) (t : Turn R) : Bool := t.op.newId = some id && Engine.acceptedIn id t.reply

end Turn

/-- A sequence of turns, as `Run` has it, that remembers them. -/
inductive Trace (ok : Turn R → Prop) (e₀ : Engine R) : List (Turn R) → Engine R → Prop
  | nil : Trace ok e₀ [] e₀
  | turn {l : List (Turn R)} {t : Turn R} : Trace ok e₀ l t.before → t.Valid → ok t →
      Trace ok e₀ (l ++ [t]) t.done.engine

/-- What the turns have put out. -/
def outputs (l : List (Turn R)) : List (Output R) := l.flatMap fun t => t.done.out

theorem Trace.run {ok : Turn R → Prop} {e₀ e l} (h : Trace ok e₀ l e) :
    Run anyCall e₀ e (outputs l) := by
  induction h with
  | nil => exact .nil
  | turn _ hvalid _ ih =>
    rw [outputs, flatMap_append, flatMap_singleton]
    exact .call ih hvalid.tick ⟨hvalid.range, trivial⟩ hvalid.handle

/-- The calls one after the other, as turns. -/
def Engine.turns : List (Clock × Op R) → Engine R → Option (List (Turn R) × Engine R)
  | [], e => some ([], e)
  | (clock, op) :: calls, e =>
    match e.tick (clock .advance) with
    | .error _ => none
    | .ok c =>
      if c.engine.inRange op then
        match c.handle clock op with
        | .error _ => none
        | .ok c' => (turns calls c'.engine).map fun r => (⟨e, clock, op, c, c'⟩ :: r.1, r.2)
      else none

theorem Trace.turns {ok : Turn R → Prop} {calls e₀ e e' l l'}
    (h : Trace ok e₀ l e) (hturns : e.turns calls = some (l', e')) (hok : ∀ t ∈ l', ok t) :
    Trace ok e₀ (l ++ l') e' := by
  induction calls generalizing e l l' with
  | nil =>
    cases hturns
    rwa [append_nil]
  | cons call _ ih =>
    obtain ⟨clock, op⟩ := call
    simp only [Engine.turns] at hturns
    split at hturns
    · cases hturns
    rename_i c htick
    split at hturns
    · rename_i hrange
      split at hturns
      · cases hturns
      rename_i c' hhandle
      obtain ⟨⟨_, _⟩, hr, heq⟩ := Option.map_eq_some_iff.mp hturns
      cases heq
      have hturn : Trace ok e₀ (l ++ [⟨e, clock, op, c, c'⟩]) c'.engine :=
        @Trace.turn R ok e₀ l ⟨e, clock, op, c, c'⟩ h ⟨htick, hrange, hhandle⟩ (hok _ mem_cons_self)
      rw [append_cons]
      exact ih hturn hr fun t ht => hok t (mem_cons_of_mem _ ht)
    · cases hturns

/-- A trace that computes, with a property of it. -/
theorem Trace.of_computed (ok : Turn R → Prop) [DecidablePred ok] (e₀ : Engine R) (calls : List (Clock × Op R))
    (P : List (Turn R) → Engine R → Prop) [∀ l e, Decidable (P l e)]
    (h : (e₀.turns calls).any (fun r => decide ((∀ t ∈ r.1, ok t) ∧ P r.1 r.2)) = true) :
    ∃ l e, Trace ok e₀ l e ∧ P l e := by
  obtain ⟨⟨l, e⟩, hr, hP⟩ := Option.any_eq_true _ _ |>.mp h
  obtain ⟨hok, hP⟩ := of_decide_eq_true hP
  exact ⟨l, e, Trace.nil.turns hr hok, hP⟩

/-- The id that a replace gives to its order. -/
def Op.replacedAs : Op R → Option String
  | .cancelReplace m => some m.newOrderId
  | .newOrder .. | .cancel _ | .massCancel _ | .subscribe _ | .beginOpeningCall _ | .tick => none

theorem Op.newId_cases {op : Op R} (h : op.newId = some id) :
    (∃ order owner, op = .newOrder order owner ∧ order.orderId = id) ∨ op.replacedAs = some id := by
  cases op with
  | newOrder order owner => exact .inl ⟨order, owner, rfl, Option.some.inj h⟩
  | cancelReplace => exact .inr h
  | _ => cases h

/-- Ids and senders are not empty, and no replace takes the id of an order that is live for another sender before the
call. -/
def Turn.Fair (t : Turn R) : Prop :=
  (∀ id ∈ t.op.newId, id ≠ "") ∧ (∀ sender ∈ t.op.sender, sender ≠ "") ∧
    ∀ id ∈ t.op.replacedAs, ∀ st ∈ t.before.states[id]?, t.op.sender = some st.sender

instance : DecidablePred (Turn.Fair (R := R)) := fun t =>
  inferInstanceAs (Decidable ((∀ id ∈ t.op.newId, id ≠ "") ∧ (∀ sender ∈ t.op.sender, sender ≠ "") ∧
    ∀ id ∈ t.op.replacedAs, ∀ st ∈ t.before.states[id]?, t.op.sender = some st.sender))

/-- The status of a live order is its sender's, and every status is that of the sender who had its order accepted
last. -/
structure Engine.Owned (l : List (Turn R)) (e : Engine R) : Prop where
  live : ∀ (id : String) (st : OrderState R), e.states[id]? = some st →
    id ≠ "" ∧ st.sender ≠ "" ∧ e.statusHistory[id]?.map Prod.fst = some st.sender
  accepted : ∀ (id : String) (s : String × Report), e.statusHistory[id]? = some s →
    ∃ t, l.reverse.find? (Turn.accepts id) = some t ∧ t.op.sender = some s.1

section owned

variable {ids : Nat → String} {out : List (Output R)} {e : Engine R} {c c' : Call R} {clock : Clock} {op : Op R}
    {l : List (Turn R)}

private theorem newOrder_mentioned {order owner} (hc : c.engine.Sound)
    (hcall : c.handle clock (.newOrder order owner) = .ok c') :
    ∃ l, c'.out = c.out ++ l ∧ ∃ r ∈ reportsOf l, r.orderId = order.orderId := by
  obtain ⟨_, hprocess, hcall⟩ := bind_eq_ok.mp hcall
  obtain ⟨c₂, hdispatch, hpublish⟩ := bind_eq_ok.mp hprocess
  cases hcall
  have hinv := hc.inv (some (.newOrder order owner)) c.out
  obtain ⟨c₀, hc₀, hbump, hbegun⟩ := hinv.begun rfl
  have hopens := (processOrder_safe clock (hbump.inv hinv) hbegun rfl
    (fun ts o ho => c.engine.context_complete _ _ _ rfl ⟨ts, o, ho, rfl⟩) rfl).of_ok
      (by rw [hc₀]; exact hdispatch)
  obtain ⟨_, -, hmention, hpath⟩ := hopens
  obtain ⟨l, hl, r, hr, hid⟩ := (Path.mentioned hpath hmention).told rfl
  obtain ⟨-, ⟨l', hl', -⟩, -⟩ := publishIndicative_fresh hpublish
  refine ⟨l ++ l', ?_, r, ?_, hid⟩
  · rw [← append_assoc]
    have hstart : c₀.out = c.out := by rw [hc₀]; rfl
    have hl : c₂.out = c₀.out ++ l := hl
    rw [← hstart, ← hl]
    exact hl'
  · rw [reportsOf_append]
    exact mem_append_left _ hr

private theorem newOrder_duplicate {order owner} (hfresh : c.engine.Fresh)
    (hcall : c.handle clock (.newOrder order owner) = .ok c') (hst : c.engine.states[order.orderId]? = some st) :
    c'.engine.states = c.engine.states ∧ Engine.acceptedIn order.orderId c'.out = false := by
  rcases handle_newOrder hfresh hcall with ⟨hstates, _, r, hid, htype, hout⟩ | ⟨hnone, -⟩
  · refine ⟨hstates, ?_⟩
    rw [hout, acceptedIn_append ⟨r, mem_singleton_self _, hid⟩]
    exact acceptedIn_reject htype order.orderId
  · cases hnone.symm.trans hst

private theorem tick_live {now} (he : e.Sound) (htick : e.tick now = .ok c) (hst : c.engine.states[id]? = some st) :
    ∃ st₀, e.states[id]? = some st₀ ∧ st.sender = st₀.sender := by
  obtain ⟨c₁, ht⟩ := (tick_safe he now).of_ok htick
  have hst₁ : (idle false c₁).call.engine.states[id]? = some st := by
    rw [← hst, ht.call, Call.rememberStatus, Engine.rememberStatus_market c₁.engine c₁.out]
    rfl
  rcases Path.terms ht.path hst₁ with ⟨st₀, hst₀, hterms⟩ | ⟨hop, -⟩
  · have hsender : st.terms.sender = st₀.terms.sender := by rw [hterms]
    exact ⟨st₀, hst₀, hsender⟩
  · cases hop

theorem Engine.Owned.tick {now} (h : e.Owned l) (he : e.Sound) (hrem : c.engine.Remembers out)
    (htick : e.tick now = .ok c)
    (howners : ∀ (id : String) (s : String × Report), c.engine.statusHistory[id]? = some s →
      e.statusHistory[id]?.map Prod.fst = some s.1) : c.engine.Owned l := by
  refine ⟨fun id st hst => ?_, fun id s hs => ?_⟩
  · obtain ⟨st₀, hst₀, hsender⟩ := tick_live he htick hst
    obtain ⟨_, _, hr, -⟩ := hrem.live id st hst
    obtain ⟨hid, hne, howner⟩ := h.live id st₀ hst₀
    rw [howners id _ hr, Option.some.injEq] at howner
    rw [hr, hsender, ← howner]
    exact ⟨hid, howner ▸ hne, rfl⟩
  · obtain ⟨s₀, hs₀, heq⟩ := Option.map_eq_some_iff.mp (howners id s hs)
    rw [← heq]
    exact h.accepted id s₀ hs₀

namespace Turn

variable {t : Turn R}

section

variable (h : t.Valid) (he : t.before.Sound)
include h he

theorem Valid.ticked_sound : t.ticked.engine.Sound := by
  obtain ⟨_, hticked⟩ := (tick_safe he _).of_ok h.tick
  exact hticked.sound he

theorem Valid.done_sound : t.done.engine.Sound := by
  have hsound := h.ticked_sound he
  obtain ⟨_, hpath, hanswered⟩ := (hsound.handle t.clock h.range).of_ok h.handle
  exact (Inv.sound (hpath.inv (hsound.inv (some t.op) t.ticked.out))).sameMarket hanswered.market.1

theorem Valid.ticked_live (hst : t.done.engine.states[id]? = some st) :
    (∃ st₀, t.ticked.engine.states[id]? = some st₀ ∧ st.sender = st₀.sender) ∨
      (t.op.newId = some id ∧ t.op.sender = some st.sender) := by
  obtain ⟨c₁, hpath, hanswered⟩ := ((h.ticked_sound he).handle t.clock h.range).of_ok h.handle
  have hst₁ : (idle false c₁).call.engine.states[id]? = some st := by
    rw [← hst, hanswered.market.1]
    rfl
  rcases Path.terms hpath hst₁ with ⟨st₀, hst₀, hterms⟩ | hnew
  · have hsender : st.terms.sender = st₀.terms.sender := by rw [hterms]
    exact .inl ⟨st₀, hst₀, hsender⟩
  · exact .inr ⟨hnew.newId, hnew.sender⟩

theorem Valid.ticked_reports (hr : r ∈ reportsOf t.ticked.out) : ∃ st, t.before.states[r.orderId]? = some st := by
  obtain ⟨c₀, hticked⟩ := (tick_safe he _).of_ok h.tick
  obtain ⟨l, hl, hlive⟩ := Path.out hticked.path
  have hl : c₀.out = l := hl
  rw [hticked.call, Call.rememberStatus, hl] at hr
  exact hlive rfl r hr

theorem Valid.done_out : t.done.out = t.ticked.out ++ t.reply := by
  obtain ⟨_, hpath, hanswered⟩ := ((h.ticked_sound he).handle t.clock h.range).of_ok h.handle
  obtain ⟨l, hl, -⟩ := Path.out hpath
  have hl : t.done.out = t.ticked.out ++ l := hanswered.market.2.trans hl
  rw [reply, Call.since_of_append hl, hl]

end

/-- A request for an id that is live is of the same sender, or is rejected. -/
theorem Fair.reused (ht : t.Fair) (hvalid : t.Valid) (he : t.before.Sound) (hfresh : t.ticked.engine.Fresh)
    (hst : t.ticked.engine.states[id]? = some st) (hnew : t.op.newId = some id) :
    t.op.sender = some st.sender ∨
      (t.done.engine.states = t.ticked.engine.states ∧ Engine.acceptedIn id t.done.out = false) := by
  rcases Op.newId_cases hnew with ⟨_, _, hop, rfl⟩ | hreplaced
  · exact .inr (newOrder_duplicate hfresh (hop ▸ hvalid.handle) hst)
  obtain ⟨st₀, hst₀, hsender⟩ := tick_live he hvalid.tick hst
  rw [hsender]
  exact .inl (ht.2.2 id hreplaced st₀ hst₀)

/-- A request whose order was reported about in the tick, and not in the reply, is a replace of the order's sender. -/
theorem Fair.stale (ht : t.Fair) (hvalid : t.Valid) (he : t.before.Sound) (hnew : t.op.newId = some id)
    (haccepted : Engine.acceptedIn id t.done.out = true) (hreply : Engine.acceptedIn id t.reply = false) :
    ∃ st, t.before.states[id]? = some st ∧ t.op.sender = some st.sender := by
  have hout := hvalid.done_out he
  have hsilent : ¬ ∃ r ∈ reportsOf t.reply, r.orderId = id := by
    intro hr
    rw [hout, acceptedIn_append hr, hreply] at haccepted
    cases haccepted
  obtain ⟨r, hr, hid⟩ : ∃ r ∈ reportsOf t.ticked.out, r.orderId = id := by
    obtain ⟨r, hmem, hid, -⟩ := report_of_accepted haccepted
    rw [hout, reportsOf_append] at hmem
    rcases mem_append.mp hmem with hold | hnew
    · exact ⟨r, hold, hid⟩
    · exact absurd ⟨r, hnew, hid⟩ hsilent
  obtain ⟨st, hst⟩ := hvalid.ticked_reports he hr
  rw [hid] at hst
  refine ⟨st, hst, ?_⟩
  rcases Op.newId_cases hnew with ⟨_, _, hop, rfl⟩ | hreplaced
  · obtain ⟨_, hl, hmention⟩ := newOrder_mentioned (hvalid.ticked_sound he) (hop ▸ hvalid.handle)
    rw [append_cancel_left (hl.symm.trans hout)] at hmention
    exact absurd hmention hsilent
  · exact ht.2.2 id hreplaced st hst

end Turn

/-- The owner of a status after a request: the sender of the request that was accepted, or who it was before. -/
def Rebound (t : Turn R) : Prop := ∀ (id : String) (s : String × Report), t.done.engine.statusHistory[id]? = some s →
  if t.op.newId = some id ∧ Engine.acceptedIn id t.done.out = true then t.op.sender = some s.1
  else t.ticked.engine.statusHistory[id]?.map Prod.fst = some s.1

section rebound

variable {t : Turn R}

theorem Rebound.live (h : Rebound t) (hvalid : t.Valid) (ht : t.Fair) (he : t.before.Sound)
    (hfresh : t.ticked.engine.Fresh) (howned : t.ticked.engine.Owned l) (hst : t.done.engine.states[id]? = some st)
    {s} (hs : t.done.engine.statusHistory[id]? = some s) : id ≠ "" ∧ st.sender ≠ "" ∧ s.1 = st.sender := by
  have howner := h id s hs
  rcases hold : t.ticked.engine.states[id]? with _ | st₀
  · obtain ⟨hnew, hsender, haccepted, -⟩ := accepted_of_live (hvalid.ticked_sound he) hfresh hvalid.range
      hvalid.handle hst hold
    rw [if_pos ⟨hnew, haccepted⟩, hsender] at howner
    exact ⟨ht.1 id hnew, ht.2.1 _ hsender, (Option.some.inj howner).symm⟩
  obtain ⟨hid, hne, hbefore⟩ := howned.live id st₀ hold
  rw [hbefore] at howner
  -- a request that names the order is its sender's, or it changes nothing
  have hsender : st.sender = st₀.sender := by
    rcases hvalid.ticked_live he hst with ⟨_, hst₁, hsame⟩ | ⟨hnew, hbrings⟩
    · cases hold.symm.trans hst₁
      exact hsame
    rcases ht.reused hvalid he hfresh hold hnew with hs | ⟨hstates, -⟩
    · exact Option.some.inj (hbrings.symm.trans hs)
    rw [hstates] at hst
    cases hold.symm.trans hst
    rfl
  refine ⟨hid, hsender ▸ hne, ?_⟩
  rw [hsender]
  split at howner
  · rename_i hnew
    rcases ht.reused hvalid he hfresh hold hnew.1 with hs | ⟨-, hreject⟩
    · exact Option.some.inj (howner.symm.trans hs)
    · rw [hnew.2] at hreject
      cases hreject
  · exact (Option.some.inj howner).symm

/-- Every status is that of the sender whose request was accepted last. -/
theorem Rebound.accepted (h : Rebound t) (hvalid : t.Valid) (ht : t.Fair) (he : t.before.Sound)
    (hbefore : t.before.Owned l)
    (howned : t.ticked.engine.Owned l) {s : String × Report} (hs : t.done.engine.statusHistory[id]? = some s) :
    ∃ t', (l ++ [t]).reverse.find? (Turn.accepts id) = some t' ∧ t'.op.sender = some s.1 := by
  have howner := h id s hs
  rw [reverse_append, reverse_singleton, singleton_append, find?_cons]
  cases haccepts : t.accepts id with
  | true =>
    rw [Turn.accepts, Bool.and_eq_true, decide_eq_true_eq] at haccepts
    have haccepted : Engine.acceptedIn id t.done.out = true := by
      obtain ⟨r, hmem, hid, -⟩ := report_of_accepted haccepts.2
      rw [hvalid.done_out he, acceptedIn_append ⟨r, hmem, hid⟩, haccepts.2]
    rw [if_pos ⟨haccepts.1, haccepted⟩] at howner
    exact ⟨t, rfl, howner⟩
  | false =>
    show ∃ t', l.reverse.find? (Turn.accepts id) = some t' ∧ t'.op.sender = some s.1
    split at howner
    · rename_i hnew
      have hreply : Engine.acceptedIn id t.reply = false := by
        rw [Turn.accepts, decide_eq_true hnew.1, Bool.true_and] at haccepts
        exact haccepts
      obtain ⟨st, hst, hsender⟩ := ht.stale hvalid he hnew.1 hnew.2 hreply
      obtain ⟨-, -, hstatus⟩ := hbefore.live id st hst
      obtain ⟨s₀, hs₀, heq⟩ := Option.map_eq_some_iff.mp hstatus
      have hsame : s₀.1 = s.1 := heq.trans (Option.some.inj (hsender.symm.trans howner))
      rw [← hsame]
      exact hbefore.accepted id s₀ hs₀
    · obtain ⟨s₀, hs₀, heq⟩ := Option.map_eq_some_iff.mp howner
      rw [← heq]
      exact howned.accepted id s₀ hs₀

end rebound

/-- Everything that is kept about statuses. -/
structure Kept (ids : Nat → String) (l : List (Turn R)) (e : Engine R) : Prop where
  sound : e.Sound
  tidy : e.Tidy
  told : (idle false { engine := e }).Told ids (outputs l)
  remembers : e.Remembers (outputs l)
  owned : e.Owned l

theorem Kept.turn (hids : Distinct ids) {t} (h : Kept ids l t.before) (hvalid : t.Valid) (ht : t.Fair) :
    Kept ids (l ++ [t]) t.done.engine := by
  have hsound := hvalid.ticked_sound h.sound
  have htidy := h.tidy.tick hvalid.tick
  obtain ⟨htold, hrem, howners⟩ := h.remembers.tick hids h.sound h.told hvalid.tick
  have howned := h.owned.tick h.sound hrem hvalid.tick howners
  obtain ⟨htold', hrem', hrebound⟩ := hrem.handle hids hsound htidy.fresh htold hvalid.range hvalid.handle
  have hrebound : Rebound t := hrebound
  have houtputs : outputs (l ++ [t]) = outputs l ++ t.done.out := by
    rw [outputs, flatMap_append, flatMap_singleton]
    rfl
  refine ⟨hvalid.done_sound h.sound, htidy.handle hvalid.handle, houtputs ▸ htold'.next, houtputs ▸ hrem',
    ⟨fun id st hst => ?_, fun id _ hs => hrebound.accepted hvalid ht h.sound h.owned howned hs⟩⟩
  obtain ⟨_, _, hr, -⟩ := hrem'.live id st hst
  obtain ⟨hid, hne, howner⟩ := hrebound.live hvalid ht h.sound htidy.fresh howned hst hr
  rw [hr]
  exact ⟨hid, hne, congrArg some howner⟩

theorem Kept.new (cfg : Settings) :
    Kept cfg.ids [] (Engine.new cfg : Engine R) := by
  have hstates : ∀ id : String, (Engine.new cfg : Engine R).states[id]? = none :=
    fun id => by simp [Engine.new]
  have hstatus : ∀ id : String, (Engine.new cfg : Engine R).statusHistory[id]? = none :=
    fun id => by simp [Engine.new]
  refine ⟨.new .., .new .., ⟨fun id st hst => ?_, fun _ hr => absurd hr not_mem_nil, rfl, rfl⟩,
    ⟨fun id st hst => ?_, fun id _ _ hv => ?_⟩, ⟨fun id st hst => ?_, fun id _ hs => ?_⟩⟩
  · cases (hstates id).symm.trans hst
  · cases (hstates id).symm.trans hst
  · cases (hstatus id).symm.trans hv
  · cases (hstates id).symm.trans hst
  · cases (hstatus id).symm.trans hs

end owned

section status

variable {l : List (Turn R)} {e : Engine R}
variable {cfg : Settings}

theorem Trace.kept (hids : Distinct cfg.ids) (h : Trace Turn.Fair (Engine.new cfg) l e) : Kept cfg.ids l e := by
  generalize he₀ : Engine.new cfg = e₀ at h
  induction h with
  | nil =>
    rw [← he₀]
    exact .new ..
  | turn _ hvalid ht ih => exact ih.turn hids hvalid ht

/-- A status as a query shows it. -/
def Report.asStatus (r : Report) : Report :=
  { r with executionType := .orderStatus, executionId := "0", executedQuantity := 0, executionPrice := 0 }

theorem Engine.mem_orderStatus {sender side} (h : r ∈ e.orderStatus sender id side) :
    ∃ (key : String) (v : Report), e.statusHistory[key]? = some (sender, v) ∧ v.orderId ≠ "" ∧ r = v.asStatus := by
  unfold Engine.orderStatus at h
  split at h
  · cases h
  simp only [mem_insertionSort, mem_map, mem_filter] at h
  obtain ⟨⟨key, _, v⟩, ⟨hmem, hfilter⟩, rfl⟩ := h
  simp only [Bool.and_eq_true, decide_eq_true_eq, Bool.not_eq_true', String.isEmpty_eq_false_iff] at hfilter
  obtain ⟨⟨⟨howner, -⟩, hid⟩, -⟩ := hfilter
  rw [howner] at hmem
  exact ⟨key, v, Maps.Iteration.mem_entries.mp hmem, hid, rfl⟩

theorem Engine.orderStatus_of_id {sender side v} (hsender : sender ≠ "") (hid : id ≠ "")
    (hv : e.statusHistory[id]? = some (sender, v)) (hvid : v.orderId ≠ "") (hside : side = 0 ∨ side = v.side) :
    e.orderStatus sender id side = [v.asStatus] := by
  have hfilter : (e.iterations.statusHistory.entries e.statusHistory).filter (fun s =>
      s.2.1 = sender && (id.isEmpty || s.1 = id) && !s.2.2.orderId.isEmpty && (side = 0 || side = s.2.2.side)) =
      (e.iterations.statusHistory.entries e.statusHistory).filter (·.1 = id) := by
    refine filter_congr fun s hs => ?_
    obtain ⟨key, _, _⟩ := s
    rw [Maps.Iteration.mem_entries] at hs
    by_cases hkey : key = id
    · subst hkey
      cases hv.symm.trans hs
      simp [hvid, hside]
    · simp [hkey, hid]
  have hone : (e.iterations.statusHistory.entries e.statusHistory).filter (·.1 = id) = [(id, sender, v)] := by
    refine Maps.filter_eq_toList (o := some (id, sender, v)) (e.iterations.statusHistory.entries_nodup _) fun s => ?_
    obtain ⟨_, _, _⟩ := s
    rw [Maps.Iteration.mem_entries]
    constructor
    · rintro ⟨hs, rfl⟩
      cases hv.symm.trans hs
      rfl
    · intro h
      cases h
      exact ⟨hv, rfl⟩
  unfold Engine.orderStatus
  rw [if_neg (by simpa using hsender)]
  simp only
  rw [hfilter, hone]
  rfl

/-- If no replace takes the id of another sender's live order, a query returns reports of orders accepted from its
sender, and for a live order its report state. -/
theorem order_status_owned (hids : Distinct cfg.ids)
    (h : Trace Turn.Fair (Engine.new cfg) l e) :
    (∀ (sender id : String) (side : Int32), ∀ r ∈ e.orderStatus sender id side,
      ∃ t, l.reverse.find? (Turn.accepts r.orderId) = some t ∧ t.op.sender = some sender) ∧
    ∀ (id : String) (st : OrderState R), e.states[id]? = some st → ∀ side : Int32, side = 0 ∨ side = st.side →
      ∃ r, e.orderStatus st.sender id side = [r] ∧ r.orderId = id ∧ r.leavesQuantity = asI32 st.leaves ∧
        r.cumQuantity = asI32 st.cumQty := by
  have hkept := Trace.kept hids h
  constructor
  · intro sender id side r hr
    obtain ⟨key, v, hv, -, rfl⟩ := Engine.mem_orderStatus hr
    obtain ⟨r, -, hid, -, rfl⟩ := hkept.remembers.known key sender v hv
    obtain ⟨t, ht, hsender⟩ := hkept.owned.accepted key _ hv
    refine ⟨t, ?_, hsender⟩
    rw [show r.remembered.asStatus.orderId = key from r.remembered_orderId.trans hid]
    exact ht
  · intro id st hst side hside
    obtain ⟨hid, hsender, howner⟩ := hkept.owned.live id st hst
    obtain ⟨owner, r, hr, hlast, hshows⟩ := hkept.remembers.live id st hst
    rw [hr, Option.map_some, Option.some.injEq] at howner
    have howner : owner = st.sender := howner
    subst howner
    obtain ⟨-, hrid, -⟩ := lastReport_mem hlast
    refine ⟨r.asStatus, Engine.orderStatus_of_id hsender hid hr (by rw [hrid]; exact hid) ?_, hrid, hshows.leaves,
      hshows.cumQuantity⟩
    rwa [hshows.side]

end status

/-- Execution ids in strokes. -/
def tally (n : Nat) : String := String.ofList (List.replicate (n + 1) '|')

theorem Distinct.tally : Distinct tally where
  injective m n h := by
    have hlength : (Fxp.tally m).toList.length = (Fxp.tally n).toList.length := by rw [h]
    simpa [Fxp.tally] using hlength
  nonempty n h := by
    have hlength : (Fxp.tally n).toList.length = "".toList.length := by rw [h]
    simp [Fxp.tally] at hlength

/-- An order trades in part and is replaced; the query for its new id returns what it has left. -/
theorem order_status_owned_replaced : ∃ (l : List (Turn Nat)) (e : Engine Nat) (r : Report),
    Trace Turn.Fair (Engine.new { Settings.sample none with ids := tally }) l e ∧ e.orderStatus "a" "C" 0 = [r] ∧
      r.leavesQuantity = 6 ∧ r.cumQuantity = 4 := by
  obtain ⟨l, e, htrace, hlive⟩ := Trace.of_computed Turn.Fair (Engine.new { Settings.sample none with ids := tally })
    [orderAt 10 "A" "a" .buy 100 10, (.at 20, .newOrder (.sample "B" "c" .sell 100 4) 1),
      (.at 30, .cancelReplace { orderId := "A", sender := "a", newOrderId := "C", outputTx := 0, newPrice := 101 })]
    (fun _ e => e.states["C"]?.map (fun st => (st.sender, asI32 st.leaves, asI32 st.cumQty)) = some ("a", 6, 4))
    (by decide +kernel)
  obtain ⟨st, hst, hfields⟩ := Option.map_eq_some_iff.mp hlive
  simp only [Prod.mk.injEq] at hfields
  obtain ⟨hsender, hleaves, hcum⟩ := hfields
  obtain ⟨r, hr, -, hrleaves, hrcum⟩ := (order_status_owned Distinct.tally htrace).2 "C" st hst 0 (.inl rfl)
  exact ⟨l, e, r, htrace, hsender ▸ hr, hrleaves.trans hleaves, hrcum.trans hcum⟩

/-- The remainder of an order is canceled in the tick of a rejected replace to its id, whose sender sees it from then
on. -/
theorem order_status_of_foreign : ∃ (l : List (Turn Nat)) (e : Engine Nat),
    Trace (fun _ => True) (Engine.sample (some .sample)) l e ∧ (e.orderStatus "b" "" 0).map Report.orderId = ["A"] ∧
      ∀ t ∈ l, t.accepts "A" = true → t.op.sender = some "a" := by
  exact Trace.of_computed (fun _ => True) (Engine.sample (some .sample))
    [(.at 150, .newOrder { NewOrderSingle.sample "A" "a" .buy 100 10 with timeInForce := 5 } 0),
      orderAt 160 "B" "c" .sell 100 4,
      (.at 250, .cancelReplace { orderId := "Q", sender := "b", newOrderId := "A", outputTx := 1 })] _
    (by decide +kernel)

end Fxp
