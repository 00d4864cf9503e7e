import Fxp.Status

/-!
# The lives of orders

An id has one incarnation after the other: each begins when a request that brings the order is accepted, and ends when
the order leaves the live states.
-/

namespace Fxp

open Checked List

variable {R : Type}

/-- The order of the report is no longer live. -/
def Report.isTerminal (r : Report) : Bool := r.orderStatus.isTerminal

variable (id : String)

/-- The reports about `id` that are not rejects. -/
def lifeOf (out : List (Output R)) : List Report :=
  (reportsOf out).filter fun r => r.orderId = id && r.executionType ≠ .rejected

def Engine.isLive (e : Engine R) (id : String) : Bool := e.states[id]?.isSome

/-- The reports about an order that is live before them or not, and after them or not. -/
inductive Segment : Bool → Bool → List Report → Prop
  | absent : Segment false false []
  | lasting {rs : List Report} (h : ∀ r ∈ rs, r.isTerminal = false) : Segment true true rs
  | ending {rs : List Report} {r : Report} (h : ∀ r ∈ rs, r.isTerminal = false) (hr : r.isTerminal = true) :
    Segment true false (rs ++ [r])

namespace Segment

variable {a b c : Bool} {rs rs' : List Report} {r : Report}

private theorem nil (a : Bool) : Segment a a [] := by
  cases a with
  | false => exact .absent
  | true => exact .lasting fun _ hr => absurd hr not_mem_nil

private theorem single (r : Report) : Segment true (!r.isTerminal) [r] := by
  cases hr : r.isTerminal with
  | false =>
    refine .lasting fun r' hr' => ?_
    rw [mem_singleton.mp hr', hr]
  | true =>
    show Segment true false ([] ++ [r])
    exact .ending (fun r' hr' => absurd hr' not_mem_nil) hr

private theorem append (h : Segment a b rs) (h' : Segment b c rs') : Segment a c (rs ++ rs') := by
  cases h with
  | absent => exact h'
  | lasting hrs =>
    have hmore : ∀ l : List Report, (∀ r ∈ l, r.isTerminal = false) → ∀ r ∈ rs ++ l, r.isTerminal = false := by
      intro l hl r hr
      rcases mem_append.mp hr with hr | hr
      · exact hrs r hr
      · exact hl r hr
    cases h' with
    | lasting hrs' => exact .lasting (hmore _ hrs')
    | ending hrs' hr =>
      rw [← append_assoc]
      exact .ending (hmore _ hrs') hr
  | ending hrs hr =>
    cases h'
    rw [append_nil]
    exact .ending hrs hr

private theorem of_nil (h : Segment a b []) : a = b := by
  generalize hrs : ([] : List Report) = rs at h
  cases h with
  | absent | lasting => rfl
  | ending =>
    have hlength := congrArg List.length hrs
    simp at hlength

private theorem of_absent (h : Segment false b rs) : b = false ∧ rs = [] := by
  cases h
  exact ⟨rfl, rfl⟩

private theorem tail_eq_nil (h : Segment a b (r :: rs)) (hr : r.isTerminal = true) : rs = [] := by
  generalize hl : r :: rs = l at h
  cases h with
  | absent => cases hl
  | lasting hrs =>
    have := hrs r (hl ▸ mem_cons_self)
    rw [hr] at this
    cases this
  | @ending init _ hinit =>
    rcases init with _ | ⟨_, init⟩
    · cases hl
      rfl
    cases hl
    have := hinit r mem_cons_self
    rw [hr] at this
    cases this

end Segment

section steps

variable {x : Context R} {w w' : Progress R} {id : String}

/-- The step brings the order `id`, as the first thing that its call reports; `old` are the reports of an order it
replaces under its id. -/
structure Birth (x : Context R) (id : String) (w w' : Progress R) (l : List (Output R)) (old fresh : List Report) :
    Prop where
  newId : x.request.bind Op.newId = some id
  first : w.call.engine.issued = x.start.issued
  unknown : (∃ order owner, x.request = some (.newOrder order owner)) → w.call.engine.isLive id = false
  life : lifeOf id l = old ++ fresh
  old : Segment (w.call.engine.isLive id) false old
  fresh : Segment true (w'.call.engine.isLive id) fresh
  told : reportsOf l ≠ [] ∨
    ((∃ order owner, x.request = some (.newOrder order owner)) ∧ w'.call.engine.isLive id = true)

/-- What happens to the order `id` from `w` to `w'`. -/
structure Happens (x : Context R) (id : String) (w w' : Progress R) (l : List (Output R)) : Prop where
  out : w'.call.out = w.call.out ++ l
  issued : w'.call.engine.issued = w.call.engine.issued + (reportsOf l).length
  life : Segment (w.call.engine.isLive id) (w'.call.engine.isLive id) (lifeOf id l) ∨
    ∃ old fresh, Birth x id w w' l old fresh

theorem Happens.silent {l} (hout : w'.call.out = w.call.out ++ l) (hl : reportsOf l = [])
    (hissued : w'.call.engine.issued = w.call.engine.issued) (hstates : w'.call.engine.states = w.call.engine.states) :
    Happens x id w w' l := by
  refine ⟨hout, by rw [hissued, hl]; rfl, .inl ?_⟩
  rw [Engine.isLive, Engine.isLive, hstates, lifeOf, hl]
  exact .nil _

private theorem lifeOf_report (id : String) (owner : R) (r : Report) :
    lifeOf id [(.executionReport owner r : Output R)] =
      if r.orderId = id ∧ r.executionType ≠ .rejected then [r] else [] := by
  by_cases h : r.orderId = id ∧ r.executionType ≠ .rejected
  · rw [if_pos h]
    simp [lifeOf, Engine.reportOf, h]
  rw [if_neg h]
  rw [not_and] at h
  by_cases hid : r.orderId = id
  · simp [lifeOf, Engine.reportOf, hid, not_not.mp (h hid)]
  · simp [lifeOf, Engine.reportOf, hid]

private theorem lifeOf_append (id : String) (l l' : List (Output R)) :
    lifeOf id (l ++ l') = lifeOf id l ++ lifeOf id l' := by
  rw [lifeOf, reportsOf_append, filter_append]
  rfl

private theorem enter_happens {order owner id₀ st} {ack : Bool} {ts}
    (hreq : x.request = some (.newOrder order owner)) (hnew : w.call.engine.states[id₀]? = none)
    (hfirst : w.call.engine.issued = x.start.issued) (hbrings : x.Brings id₀ st)
    (hout : w'.call.out = w.call.out ++ if ack then [.executionReport owner (w.call.engine.nextReport 0 id₀ (some st)
      { execType := .new, status := .new, leaves := st.leaves } ts)] else [])
    (hstates : ∀ id' : String, w'.call.engine.states[id']? = if id₀ = id' then some st else w.call.engine.states[id']?)
    (hissued : w'.call.engine.issued = w.call.engine.issued + if ack then 1 else 0) : ∃ l, Happens x id w w' l := by
  obtain ⟨r, hr⟩ :
    ∃ r, r = w.call.engine.nextReport 0 id₀ (some st) { execType := .new, status := .new, leaves := st.leaves } ts :=
    ⟨_, rfl⟩
  have hid₀ : r.orderId = id₀ := by rw [hr]; rfl
  have htype : r.executionType ≠ .rejected := by rw [hr]; nofun
  rw [← hr] at hout
  have hlive : w'.call.engine.isLive id = (decide (id₀ = id) || w.call.engine.isLive id) := by
    rw [Engine.isLive, hstates]
    by_cases hid : id₀ = id <;> simp [Engine.isLive, hid]
  have hlife : lifeOf id (if ack then [(.executionReport owner r : Output R)] else []) =
      if ack = true ∧ id₀ = id then [r] else [] := by
    rcases ack with _ | _
    · rfl
    show lifeOf id [.executionReport owner r] = _
    rw [lifeOf_report, hid₀]
    simp [htype]
  refine ⟨_, hout, ?_, ?_⟩
  · rw [hissued]
    cases ack <;> rfl
  by_cases hid : id₀ = id
  · rw [decide_eq_true hid, Bool.true_or] at hlive
    have hunknown : w.call.engine.isLive id = false := by
      rw [← hid, Engine.isLive, hnew]
      rfl
    refine .inr ⟨[], lifeOf id _, hid ▸ hbrings.newId, hfirst, fun _ => hunknown,
      rfl, ?_, ?_, .inr ⟨⟨order, owner, hreq⟩, hlive⟩⟩
    · rw [hunknown]
      exact .absent
    rw [hlive, hlife]
    refine .lasting fun _ hr' => ?_
    split at hr'
    · rw [mem_singleton.mp hr', hr]
      rfl
    · cases hr'
  · rw [decide_eq_false hid, Bool.false_or] at hlive
    refine .inl ?_
    rw [hlive, hlife, if_neg fun h => hid h.2]
    exact .nil _

private theorem takeOver_out (m : CancelReplaceMsg R) (st : OrderState R) (ts : Time) (c : Call R) : ∃ r₁ r₂ : Report,
    (c.takeOver m st ts).out = c.out ++ [.executionReport m.outputTx r₁, .executionReport m.outputTx r₂] ∧
      r₁.orderId = m.orderId ∧ r₁.executionType ≠ .rejected ∧ r₁.isTerminal = true ∧
      r₂.orderId = m.newOrderId ∧ r₂.executionType ≠ .rejected ∧ r₂.isTerminal = false := by
  simp only [Call.takeOver, Call.setState, Call.sendReplaceReports, Call.report, Call.dropState, append_assoc]
  exact ⟨_, _, rfl, rfl, by simp [buildReport], rfl, rfl, by simp [buildReport], rfl⟩

private theorem swap_happens {m st st' r₁ r₂} (hreq : x.request = some (.cancelReplace m))
    (hst : w.call.engine.states[m.orderId]? = some st)
    (hnew : m.newOrderId ≠ m.orderId → w.call.engine.states[m.newOrderId]? = none)
    (hfirst : w.call.engine.issued = x.start.issued)
    (hout : w'.call.out = w.call.out ++ [.executionReport m.outputTx r₁, .executionReport m.outputTx r₂])
    (h₁ : r₁.orderId = m.orderId ∧ r₁.executionType ≠ .rejected ∧ r₁.isTerminal = true)
    (h₂ : r₂.orderId = m.newOrderId ∧ r₂.executionType ≠ .rejected ∧ r₂.isTerminal = false)
    (hstates : ∀ id' : String, w'.call.engine.states[id']? =
      if m.newOrderId = id' then some st' else if m.orderId = id' then none else w.call.engine.states[id']?)
    (hissued : w'.call.engine.issued = w.call.engine.issued + 2) : ∃ l, Happens x id w w' l := by
  obtain ⟨hid₁, htype₁, hterminal₁⟩ := h₁
  obtain ⟨hid₂, htype₂, hterminal₂⟩ := h₂
  have hlife : lifeOf id [(.executionReport m.outputTx r₁ : Output R), .executionReport m.outputTx r₂] =
      (if m.orderId = id then [r₁] else []) ++ (if m.newOrderId = id then [r₂] else []) := by
    rw [show [(.executionReport m.outputTx r₁ : Output R), .executionReport m.outputTx r₂] =
      [.executionReport m.outputTx r₁] ++ [.executionReport m.outputTx r₂] from rfl, lifeOf_append, lifeOf_report,
      lifeOf_report, hid₁, hid₂]
    simp [htype₁, htype₂]
  have hlive : w'.call.engine.isLive id =
      if m.newOrderId = id then true else if m.orderId = id then false else w.call.engine.isLive id := by
    rw [Engine.isLive, hstates]
    split
    · rfl
    · split <;> rfl
  have hold : m.orderId = id → w.call.engine.isLive id = true := by
    rintro rfl
    rw [Engine.isLive, hst]
    rfl
  refine ⟨_, hout, hissued, ?_⟩
  · by_cases hid : m.newOrderId = id
    · rw [if_pos hid] at hlife hlive
      refine .inr ⟨_, _, ?_, hfirst, ?_, hlife, ?_, ?_, .inl (by simp [Engine.reportOf])⟩
      · rw [hreq, ← hid]
        rfl
      · rintro ⟨_, _, h⟩
        cases hreq.symm.trans h
      · by_cases hid' : m.orderId = id
        · rw [if_pos hid', hold hid']
          have := Segment.single r₁
          rwa [hterminal₁] at this
        · rw [if_neg hid', ← hid, Engine.isLive, hnew fun h => hid' (h.symm.trans hid)]
          exact .absent
      · rw [hlive]
        have := Segment.single r₂
        rwa [hterminal₂] at this
    · rw [if_neg hid] at hlife hlive
      refine .inl ?_
      rw [hlife, hlive, append_nil]
      by_cases hid' : m.orderId = id
      · rw [if_pos hid', if_pos hid', hold hid']
        have := Segment.single r₁
        rwa [hterminal₁] at this
      · rw [if_neg hid', if_neg hid']
        exact .nil _

/-- Every step is a segment of the life of `id`, or its birth. -/
theorem Step.happens (h : Step x w w') (id : String) : ∃ l, Happens x id w w' l := by
  cases h.reported with
  | silent hout hl hstates hissued => exact ⟨_, .silent hout hl hissued hstates⟩
  | @edited _ _ id' o k st rst px _ ev ts hst _ hev _ hstatus _ hout hstates hissued =>
    refine ⟨_, hout, hissued, .inl ?_⟩
    obtain ⟨r, hr⟩ : ∃ r, r = w.call.engine.nextReport 0 id' (some rst) ev ts := ⟨_, rfl⟩
    have hid' : r.orderId = id' := by rw [hr]; rfl
    have htype : r.executionType ≠ .rejected := by
      rw [hr]
      exact hev.1
    have hterminal : r.isTerminal = decide (k.rest o = 0) := by
      rw [hr]
      exact hstatus
    rw [← hr, lifeOf_report, Engine.isLive, Engine.isLive, hstates, hid']
    by_cases hid : id' = id
    · subst hid
      have hlive : (if k.rest o = 0 then none else some (k.state o px st)).isSome = !r.isTerminal := by
        rw [hterminal]
        by_cases hrest : k.rest o = 0 <;> simp [hrest]
      rw [if_pos rfl, hst, hlive, if_pos ⟨rfl, htype⟩]
      exact .single r
    · rw [if_neg hid, if_neg fun h => hid h.1]
      exact .nil _
  | entered hreq hnew hfirst _ hbrings hout hstates hissued =>
    exact enter_happens hreq hnew hfirst hbrings hout hstates hissued
  | swapped hreq hst hnew hfirst _ hout hstates hissued =>
    exact swap_happens hreq hst hnew hfirst hout ⟨rfl, nofun, rfl⟩ ⟨rfl, nofun, rfl⟩ hstates hissued
  | rejected _ hev hout hstates hissued =>
    refine ⟨_, hout, hissued, .inl ?_⟩
    rw [lifeOf_report, if_neg fun h => h.2 hev, Engine.isLive, Engine.isLive, hstates]
    exact .nil _

private theorem lifeOf_eq_nil {l : List (Output R)} (h : reportsOf l = []) (id : String) : lifeOf id l = [] := by
  rw [lifeOf, h]
  rfl

theorem Path.happens (h : Path x w w') (hstart : w.call.engine.issued = x.start.issued) (id : String) :
    ∃ l, Happens x id w w' l := by
  induction h with
  | refl => exact ⟨_, .silent (append_nil _).symm rfl rfl rfl⟩
  | @tail w₁ w₂ _ hlast ih =>
    obtain ⟨l, hout, hissued, hlife⟩ := ih
    obtain ⟨l', hout', hissued', hlife'⟩ := hlast.happens id
    have hunreported : w₁.call.engine.issued = x.start.issued → reportsOf l = [] := by
      intro hfirst
      rw [hissued, hstart] at hfirst
      exact eq_nil_of_length_eq_zero (by omega)
    refine ⟨l ++ l', by rw [hout', hout, append_assoc], ?_, ?_⟩
    · rw [hissued', hissued, reportsOf_append, length_append, Nat.add_assoc]
    rcases hlife with hsegment | ⟨old, fresh, hbirth⟩
    · rcases hlife' with hsegment' | ⟨old, fresh, hbirth⟩
      · rw [lifeOf_append]
        exact .inl (hsegment.append hsegment')
      refine .inr ⟨lifeOf id l ++ old, fresh, hbirth.newId, hstart, fun hnew => ?_, ?_, hsegment.append hbirth.old,
        hbirth.fresh, ?_⟩
      · rw [lifeOf_eq_nil (hunreported hbirth.first), hbirth.unknown hnew] at hsegment
        exact hsegment.of_nil
      · rw [lifeOf_append, hbirth.life, append_assoc]
      refine hbirth.told.imp_left fun htold => ?_
      rw [reportsOf_append]
      exact append_ne_nil_of_right_ne_nil _ htold
    · rcases hlife' with hsegment' | ⟨_, _, hbirth'⟩
      · refine .inr ⟨old, fresh ++ lifeOf id l', hbirth.newId, hbirth.first, hbirth.unknown, ?_, hbirth.old,
          hbirth.fresh.append hsegment', ?_⟩
        · rw [lifeOf_append, hbirth.life, append_assoc]
        rw [reportsOf_append]
        rcases hbirth.told with htold | ⟨hnew, hlive⟩
        · exact .inl (append_ne_nil_of_left_ne_nil htold _)
        cases hlive' : w₂.call.engine.isLive id with
        | true => exact .inr ⟨hnew, rfl⟩
        | false =>
          refine .inl (append_ne_nil_of_right_ne_nil _ fun hnil => ?_)
          rw [hlive, hlive', lifeOf_eq_nil hnil] at hsegment'
          cases hsegment'.of_nil
      · -- a second birth would have to come before any report, of an order that is live already
        exfalso
        rcases hbirth.told with htold | ⟨hnew, hlive⟩
        · exact htold (hunreported hbirth'.first)
        · rw [hbirth'.unknown hnew] at hlive
          cases hlive

end steps

namespace Turn

variable {t : Turn R}

/-- How many reports of the reply about `id` are of the order before: a replace under the same id closes it first. -/
def overlap (t : Turn R) : Nat :=
  match t.op with
  | .cancelReplace m => if m.orderId = id then 1 else 0
  | _ => 0

/-- The reports of the reply about the order that was `id` before the request. -/
def carried (t : Turn R) : List Report := (lifeOf id t.reply).take (t.overlap id)

/-- The reports of the reply about the order that the request brings. -/
def fresh (t : Turn R) : List Report := (lifeOf id t.reply).drop (t.overlap id)

theorem Valid.tick_segment (h : t.Valid) (he : t.before.Sound) (id : String) :
    Segment (t.before.isLive id) (t.ticked.engine.isLive id) (lifeOf id t.ticked.out) := by
  obtain ⟨c₀, hticked⟩ := (tick_safe he _).of_ok h.tick
  obtain ⟨l, hout, -, hlife⟩ := Path.happens hticked.path rfl id
  have hl : c₀.out = l := hout
  have hlive : t.ticked.engine.isLive id = c₀.engine.isLive id := by
    rw [hticked.call, Call.rememberStatus, Engine.isLive, Engine.rememberStatus_market c₀.engine c₀.out]
    rfl
  have hsame : t.ticked.out = l := by
    rw [hticked.call, ← hl]
    rfl
  rw [hsame, hlive]
  rcases hlife with hsegment | ⟨_, _, hbirth⟩
  · exact hsegment
  · cases hbirth.newId

/-- A request is a segment of the life of `id`, or it ends the order of that id and brings the next. -/
theorem Valid.reply_life (h : t.Valid) (he : t.before.Sound) (id : String) :
    Segment (t.ticked.engine.isLive id) (t.done.engine.isLive id) (lifeOf id t.reply) ∨
      (t.op.newId = some id ∧ ∃ old fresh, lifeOf id t.reply = old ++ fresh ∧
        Segment (t.ticked.engine.isLive id) false old ∧
        Segment true (t.done.engine.isLive id) fresh) := by
  obtain ⟨c₁, hpath, hanswered⟩ := ((h.ticked_sound he).handle t.clock h.range).of_ok h.handle
  obtain ⟨l, hout, -, hlife⟩ := Path.happens hpath rfl id
  have hl : c₁.out = t.ticked.out ++ l := hout
  obtain ⟨hmarket, hsame⟩ := hanswered.market
  have hreply : t.reply = l := Call.since_of_append (hsame.trans hl)
  have hlive : t.done.engine.isLive id = c₁.engine.isLive id := by
    rw [Engine.isLive, hmarket]
    rfl
  rw [hreply, hlive]
  refine hlife.imp_right ?_
  rintro ⟨old, fresh, hbirth⟩
  exact ⟨hbirth.newId, old, fresh, hbirth.life, hbirth.old, hbirth.fresh⟩

end Turn

private theorem mem_lifeOf {id : String} {l : List (Output R)} {r : Report} :
    r ∈ lifeOf id l ↔ r ∈ reportsOf l ∧ r.orderId = id ∧ r.executionType ≠ .rejected := by
  rw [lifeOf, mem_filter, Bool.and_eq_true, decide_eq_true_eq, decide_eq_true_eq]

private theorem lifeOf_ne_nil {id : String} {l : List (Output R)} (h : Engine.acceptedIn id l = true) :
    lifeOf id l ≠ [] := by
  obtain ⟨_, hr⟩ := lastReport_of_accepted h
  exact ne_nil_of_mem (mem_lifeOf.mpr (lastReport_mem hr))

/-- Where nothing is rejected, an order that is told about is accepted. -/
theorem accepted_of_lifeOf {id : String} {l : List (Output R)} (hno : ∀ o ∈ l, isReject o = false)
    (h : lifeOf id l ≠ []) : Engine.acceptedIn id l = true := by
  obtain ⟨_, hr⟩ := exists_mem_of_ne_nil _ h
  obtain ⟨hmem, hid, -⟩ := mem_lifeOf.mp hr
  exact accepted_of_noReject hmem hid hno

theorem Denied.lifeOf {c c' : Call R} {id' : String} (h : Denied id' c c') (id : String) :
    lifeOf id (c.since c') = [] := by
  obtain ⟨-, _, _, -, htype, hout⟩ := h
  rw [Call.since_of_append hout, lifeOf_report, if_neg fun h => h.2 htype]

theorem Taken.since {m c c'} (h : Taken m c c') : ∃ (r₁ r₂ : Report) (rest : List (Output R)),
    c.since c' = .executionReport m.outputTx r₁ :: .executionReport m.outputTx r₂ :: rest ∧ r₁.orderId = m.orderId ∧
      r₁.executionType ≠ .rejected ∧ r₁.isTerminal = true ∧ r₂.orderId = m.newOrderId ∧
      r₂.executionType ≠ .rejected := by
  obtain ⟨c₁, st, ts, hout, l, hl, -⟩ := h
  obtain ⟨r₁, r₂, htake, hid₁, htype₁, hterminal₁, hid₂, htype₂, -⟩ := takeOver_out m st ts c₁
  rw [htake, hout, append_assoc] at hl
  exact ⟨r₁, r₂, l, Call.since_of_append hl, hid₁, htype₁, hterminal₁, hid₂, htype₂⟩

private theorem lifeOf_cons {id : String} {owner : R} {r : Report} {l : List (Output R)} (hid : r.orderId = id)
    (htype : r.executionType ≠ .rejected) : lifeOf id (.executionReport owner r :: l) = r :: lifeOf id l := by
  have hsingle := lifeOf_append id [.executionReport owner r] l
  rw [lifeOf_report, if_pos ⟨hid, htype⟩] at hsingle
  exact hsingle

section turns

variable {t : Turn R} {id : String}

/-- An accepted request cuts the life of its id: what is carried over ends the order before, and the rest is the life
of the new one. -/
theorem Turn.Valid.accepted_life (h : t.Valid) (he : t.before.Sound) (hfresh : t.ticked.engine.Fresh)
    (haccepts : t.accepts id = true) :
    Segment (t.ticked.engine.isLive id) false (t.carried id) ∧ Segment true (t.done.engine.isLive id) (t.fresh id) := by
  rw [Turn.accepts, Bool.and_eq_true, decide_eq_true_eq] at haccepts
  obtain ⟨hnew, haccepted⟩ := haccepts
  have hne := lifeOf_ne_nil haccepted
  have hcall := h.handle
  -- the order that is live under the id before the request, if any, is the one that is replaced
  have hcase : (t.overlap id = 0 ∧ t.ticked.engine.isLive id = false) ∨
      (t.overlap id = 1 ∧ t.ticked.engine.isLive id = true ∧
        ∃ r₁ r₂ rest, r₁.isTerminal = true ∧ lifeOf id t.reply = r₁ :: r₂ :: rest) := by
    cases hop : t.op with
    | newOrder =>
      rw [hop] at hcall hnew
      refine .inl ⟨by rw [Turn.overlap, hop], ?_⟩
      rcases handle_newOrder hfresh hcall with hdenied | ⟨hnone, -⟩
      · exact absurd (hdenied.lifeOf id) hne
      · rw [Engine.isLive, ← Option.some.inj hnew, hnone]
        rfl
    | cancelReplace m =>
      rw [hop] at hcall hnew
      have hid : m.newOrderId = id := Option.some.inj hnew
      rcases handle_cancelReplace hfresh hcall with hdenied | ⟨htaken, hlive, hfree⟩
      · exact absurd (hdenied.lifeOf id) hne
      by_cases hsame : m.orderId = id
      · obtain ⟨r₁, r₂, rest, hsince, hid₁, htype₁, hterminal, hid₂, htype₂⟩ := htaken.since
        refine .inr ⟨by simp [Turn.overlap, hop, hsame], ?_, r₁, r₂, lifeOf id rest, hterminal, ?_⟩
        · obtain ⟨_, hst⟩ := hlive
          rw [Engine.isLive, ← hsame, hst]
          rfl
        · rw [Turn.reply, hsince, lifeOf_cons (hid₁.trans hsame) htype₁, lifeOf_cons (hid₂.trans hid) htype₂]
      · refine .inl ⟨by simp [Turn.overlap, hop, hsame], ?_⟩
        rw [Engine.isLive, ← hid, hfree fun h => hsame (h.symm.trans hid)]
        rfl
    | _ =>
      rw [hop] at hnew
      cases hnew
  rw [Turn.carried, Turn.fresh]
  rcases h.reply_life he id with hsegment | ⟨-, old, _, hlife, hold, hborn⟩
  · -- without a birth, the request would not have been accepted
    exfalso
    rcases hcase with ⟨-, hnot⟩ | ⟨-, -, _, _, _, hterminal, hlife⟩
    · rw [hnot] at hsegment
      exact hne hsegment.of_absent.2
    · rw [hlife] at hsegment
      cases hsegment.tail_eq_nil hterminal
  · rcases hcase with ⟨hzero, hnot⟩ | ⟨hone, hlive, _, _, _, hterminal, hreply⟩
    · rw [hnot] at hold
      obtain ⟨-, rfl⟩ := hold.of_absent
      rw [hzero, hlife, hnot]
      exact ⟨.absent, hborn⟩
    rcases old with _ | ⟨_, old⟩
    · rw [hlive] at hold
      cases hold.of_nil
    rw [hlife, cons_append, List.cons.injEq] at hreply
    have hnil := hold.tail_eq_nil (hreply.1 ▸ hterminal)
    subst hnil
    rw [hone, hlife]
    exact ⟨hold, hborn⟩

theorem Turn.Valid.unaccepted_life (h : t.Valid) (he : t.before.Sound) (hfresh : t.ticked.engine.Fresh)
    (haccepts : t.accepts id = false) :
    Segment (t.ticked.engine.isLive id) (t.done.engine.isLive id) (lifeOf id t.reply) := by
  rcases h.reply_life he id with hsegment | ⟨hnew, _, _, hlife, hold, hborn⟩
  · exact hsegment
  exfalso
  have hreply : Engine.acceptedIn id t.reply = false := by
    rw [Turn.accepts, decide_eq_true hnew, Bool.true_and] at haccepts
    exact haccepts
  by_cases hnil : lifeOf id t.reply = []
  · -- an order that becomes live is mentioned
    rw [hnil] at hlife
    obtain ⟨rfl, rfl⟩ := append_eq_nil_iff.mp hlife.symm
    have hdead : t.ticked.engine.states[id]? = none := Option.isSome_eq_false_iff.mp hold.of_nil |>
      Option.isNone_iff_eq_none.mp
    obtain ⟨_, hst⟩ := Option.isSome_iff_exists.mp hborn.of_nil.symm
    obtain ⟨-, -, -, haccepted⟩ := accepted_of_live (h.ticked_sound he) hfresh h.range h.handle hst hdead
    rw [Turn.reply, haccepted] at hreply
    cases hreply
  · rcases handle_brings hfresh hnew h.handle with ⟨_, hdenied⟩ | ⟨l, hl, hno⟩
    · exact hnil (hdenied.lifeOf id)
    have hsince : t.reply = l := Call.since_of_append hl
    rw [hsince, accepted_of_lifeOf hno (hsince ▸ hnil)] at hreply
    cases hreply

end turns

/-- The incarnations of an id, the newest first, each with its reports; and the reports that belong to none. -/
structure Lives where
  incarnations : List (List Report) := []
  strays : List Report := []

def Lives.add (rs : List Report) (h : Lives) : Lives :=
  match h.incarnations with
  | [] => { h with strays := h.strays ++ rs }
  | newest :: older => { h with incarnations := (newest ++ rs) :: older }

/-- A turn adds to the newest incarnation, and begins the next one if it accepts the order. -/
def Lives.turn (h : Lives) (t : Turn R) : Lives :=
  let h := h.add (lifeOf id t.ticked.out)
  if t.accepts id then
    let h := h.add (t.carried id)
    { h with incarnations := t.fresh id :: h.incarnations }
  else h.add (lifeOf id t.reply)

def lives (l : List (Turn R)) : Lives := l.foldl (Lives.turn id) {}

/-- All incarnations but the newest have ended, and that one too unless the order is live. -/
structure Lives.Fits (h : Lives) (live : Bool) : Prop where
  strays : h.strays = []
  none : h.incarnations = [] → live = false
  newest : ∀ rs older, h.incarnations = rs :: older → Segment true live rs ∧ ∀ rs' ∈ older, Segment true false rs'

namespace Lives

variable {h : Lives} {a b : Bool} {rs : List Report}

theorem Fits.add (hfits : h.Fits a) (hrs : Segment a b rs) : (h.add rs).Fits b := by
  unfold Lives.add
  split
  · rename_i hnil
    have hdead := hfits.none hnil
    subst hdead
    obtain ⟨rfl, rfl⟩ := hrs.of_absent
    refine ⟨?_, fun _ => rfl, fun rs older hcons => ?_⟩
    · rw [append_nil]
      exact hfits.strays
    · cases hnil.symm.trans hcons
  · rename_i newest older hcons
    obtain ⟨hnewest, holder⟩ := hfits.newest newest older hcons
    refine ⟨hfits.strays, nofun, fun _ _ h => ?_⟩
    cases h
    exact ⟨hnewest.append hrs, holder⟩

theorem Fits.begin (hfits : h.Fits false) (hrs : Segment true b rs) :
    Fits { h with incarnations := rs :: h.incarnations } b := by
  refine ⟨hfits.strays, nofun, fun rs' older hcons => ?_⟩
  cases hcons
  refine ⟨hrs, fun rs' hrs' => ?_⟩
  rcases hinc : h.incarnations with _ | ⟨newest, older⟩
  · rw [hinc] at hrs'
    cases hrs'
  obtain ⟨hnewest, holder⟩ := hfits.newest newest older hinc
  rw [hinc] at hrs'
  rcases mem_cons.mp hrs' with rfl | hmem
  · exact hnewest
  · exact holder rs' hmem

/-- A turn keeps the lives of every id in step with the engine. -/
theorem Fits.turn {t : Turn R} {id : String} (hfits : h.Fits (t.before.isLive id)) (hvalid : t.Valid)
    (he : t.before.Sound) (hfresh : t.ticked.engine.Fresh) : (h.turn id t).Fits (t.done.engine.isLive id) := by
  have hticked := hfits.add (hvalid.tick_segment he id)
  unfold Lives.turn
  cases haccepts : t.accepts id with
  | true =>
    obtain ⟨hcarried, hborn⟩ := hvalid.accepted_life he hfresh haccepts
    exact (hticked.add hcarried).begin hborn
  | false => exact hticked.add (hvalid.unaccepted_life he hfresh haccepts)

end Lives

theorem Trace.lives {ok : Turn R → Prop} {e₀ e : Engine R} {l : List (Turn R)} (h : Trace ok e₀ l e) (hsound : e₀.Sound)
    (htidy : e₀.Tidy) (hempty : ∀ id, e₀.isLive id = false) (id : String) : (lives id l).Fits (e.isLive id) := by
  induction h with
  | nil => exact ⟨rfl, fun _ => hempty id, nofun⟩
  | @turn _ _ htrace hvalid _ ih =>
    have hrun := htrace.run
    rw [Fxp.lives, foldl_append]
    exact ih.turn hvalid (hrun.sound hsound) ((hrun.tidy htidy).tick hvalid.tick).fresh

/-- The reports end with the only terminal one. -/
def Ended (rs : List Report) : Prop :=
  ∃ init last, rs = init ++ [last] ∧ last.isTerminal = true ∧ ∀ r ∈ init, r.isTerminal = false

theorem Segment.ended {rs} (h : Segment true false rs) : Ended rs := by
  cases h with
  | @ending init last hinit hlast => exact ⟨init, last, rfl, hlast, hinit⟩

theorem Segment.lasts {rs} (h : Segment true true rs) : ∀ r ∈ rs, r.isTerminal = false := by
  cases h with
  | lasting h => exact h

end Fxp
