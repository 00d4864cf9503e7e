import Fxp.Gateway.Ordering

/-!
# Requests and reports on their way

A request has a number of its own, and once it has left its handler it never comes back to one. A report of the core
is on its way until a reader is done with it.
-/

namespace Fxp.Gateway

open Machine Network List Function

variable {C K : Type} [DecidableEq C] [DecidableEq K] {cfg : Config K} {a : Action C K} {s s' : Network C K}

theorem Move.handlers_at (hmove : Move cfg s a s') (c : C) :
    s'.handlers c = s.handlers c ∨ (∃ m, a = .message c m) ∨ a = .handler c ∨ (∃ k, a = .write c k) ∨ a = .fail c := by
  have step : ∀ {c₀ : C} {h : Handler C} {P : Prop}, (c₀ = c → P) →
      update s.handlers c₀ h c = s.handlers c ∨ P := by
    intro c₀ h P hP
    by_cases hc : c₀ = c
    · exact .inr (hP hc)
    · exact .inl (update_of_ne (Ne.symm hc) ..)
  cases hmove with
  | start => exact step fun hc => .inl ⟨_, by rw [hc]⟩
  | replacementKnown | registerReplacement | storePending | registerOrder | targetKnown | registerTarget | foreign | own
  | storeInflight | forget | forgetInflight => exact step fun hc => .inr (.inl (by rw [hc]))
  | write => exact step fun hc => .inr (.inr (.inl ⟨_, by rw [hc]⟩))
  | fail => exact step fun hc => .inr (.inr (.inr (by rw [hc])))
  | _ => exact .inl rfl

theorem Move.readers_at (hmove : Move cfg s a s') (k : K) :
    s'.readers k = s.readers k ∨ a = .read k ∨ a = .reader k := by
  have step : ∀ {k₀ : K} {q : Reader C} {P : Prop}, (k₀ = k → P) →
      update s.readers k₀ q k = s.readers k ∨ P := by
    intro k₀ q P hP
    by_cases hk : k₀ = k
    · exact .inr (hP hk)
    · exact .inl (update_of_ne (Ne.symm hk) ..)
  cases hmove with
  | read => exact step fun hk => .inl (by rw [hk])
  | unrouted | load | replyOwn | replyForeign | deliver | delivered | dropRoute | keepRoute | noPending | takePending
  | dropLoad | keep | dropDelete | clearPending | retire | promote | finish =>
    exact step fun hk => .inr (by rw [hk])
  | _ => exact .inl rfl

theorem Move.read_sent {k} (hmove : Move cfg s (.read k) s') :
    ∃ r, s.readers k = .idle ∧ (s.down k).head? = some r ∧ s'.readers k = .load r := by
  cases hmove with
  | read hidle hdown => exact ⟨_, hidle, by rw [hdown]; rfl, update_self ..⟩

/-- A reader goes on with its report, or it is done with it. -/
theorem Move.reader_sent {k} (hmove : Move cfg s (.reader k) s') :
    ∃ r, (s.readers k).sent = some r ∧
      ((s'.readers k).sent = some r ∧ s'.outstanding = s.outstanding ∧ s'.refused = s.refused ∨
        s'.readers k = .idle ∧ s'.outstanding = s.outstanding.filter (fun e => !e.answeredBy r) ∧
          s'.refused = s.refused ++
            if requestReject r.report then r.source.toList.filter (·.answeredBy r) else []) := by
  cases hmove with
  | @unrouted _ r hat | @noPending _ r hat | @keep _ r _ hat | @dropDelete _ r _ hat | @retire _ r _ hat
  | @promote _ r _ hat | @finish _ r _ hat =>
    exact ⟨r, by rw [hat]; rfl, .inr ⟨update_self .., rfl, rfl⟩⟩
  | @load _ r route hat =>
    refine ⟨r, by rw [hat]; rfl, .inl ⟨?_, rfl, rfl⟩⟩
    show (update s.readers k (afterLoad route r) k).sent = some r
    rw [update_self, afterLoad]
    split <;> rfl
  | @delivered _ r route hat =>
    refine ⟨r, by rw [hat]; rfl, .inl ⟨?_, rfl, rfl⟩⟩
    show (update s.readers k (afterDelivery route r) k).sent = some r
    rw [update_self, afterDelivery]
    split
    · rfl
    · split <;> rfl
  | @replyOwn _ r _ hat | @replyForeign _ r _ _ hat | @deliver _ r _ _ _ hat | @dropRoute _ r _ hat
  | @keepRoute _ r _ hat | @takePending _ r _ _ hat | @dropLoad _ r _ _ hat | @clearPending _ r _ hat =>
    refine ⟨r, by rw [hat]; rfl, .inl ⟨?_, rfl, rfl⟩⟩
    show (update s.readers k _ k).sent = some r
    rw [update_self]
    rfl

/-- A report for connection `k` is in its task, on the connection, or in the hands of its reader. -/
inductive OnItsWay (s : Network C K) (k : K) (r : Sent C) : Prop
  | task {symbol : String} {task : Task C K} (htask : s.tasks[symbol]? = some task) (h : (k, r) ∈ task.emitting)
  | down (h : r ∈ s.down k)
  | reader (h : (s.readers k).sent = some r)

/-- The reports of a step: from an admission that fails, or from the call of an engine. -/
theorem Move.emitted (hmove : Move cfg s a s') :
    ∃ new, s'.emitted = s.emitted ++ new ∧ (∀ p ∈ new, OnItsWay s' p.1 p.2) ∧
      ∀ p ∈ new, ∀ e, p.2.source = some e → (∃ k, s.hand k = some e) ∨ ∃ symbol, e ∈ s.inbox symbol := by
  have inTask : ∀ {symbol : String} {task : Task C K} {s₀ : Network C K}, s'.tasks = s₀.tasks.insert symbol task →
      ∀ p ∈ task.emitting, OnItsWay s' p.1 p.2 := by
    intro symbol task s₀ htasks p hp
    have htask : s'.tasks[symbol]? = some task := by rw [htasks, Maps.getElem?_insert, if_pos rfl]
    exact .task htask hp
  have source : ∀ {src : Option (Entry C)} {ticked done : Call K}, ∀ p ∈ outcomeSends src ticked done, ∀ e,
      p.2.source = some e → src = some e := by
    intro src ticked done p hp e he
    rcases mem_append.mp hp with hp | hp <;> obtain ⟨o, -, ho⟩ := mem_filterMap.mp hp <;> cases o <;>
      simp at ho <;> subst ho <;> first | exact he | cases he
  cases hmove with
  | @deny k now e reason hhand =>
    refine ⟨[(k, ⟨serverReject now reason e.request, some e⟩)], rfl, ?_, ?_⟩
    · intro p hp
      rw [mem_singleton.mp hp]
      refine .down ?_
      show _ ∈ update s.down k _ k
      rw [update_self]
      exact mem_append_right _ (mem_singleton_self _)
    · intro p hp e' he'
      rw [mem_singleton.mp hp] at he'
      cases he'
      exact .inl ⟨k, hhand⟩
  | @receive symbol _ _ _ _ e _ ticked done htask hqueue =>
    refine ⟨outcomeSends (some e) ticked done, rfl, inTask rfl, fun p hp e' he' => .inr ⟨symbol, ?_⟩⟩
    rw [inbox_of_task htask, hqueue, ← Option.some.inj (source p hp e' he')]
    simp
  | @other _ _ _ _ _ ticked done =>
    exact ⟨outcomeSends none ticked done, rfl, inTask rfl, fun p hp e' he' => nomatch source p hp e' he'⟩
  | _ => exact ⟨[], (append_nil _).symm, fun p hp => (nomatch hp), fun p hp => (nomatch hp)⟩

theorem Move.emitting_at (hmove : Move cfg s a s') {symbol : String} {task : Task C K} {p : K × Sent C}
    (htask : s.tasks[symbol]? = some task) (hp : p ∈ task.emitting) :
    (∃ task', s'.tasks[symbol]? = some task' ∧ p ∈ task'.emitting) ∨ p.2 ∈ s'.down p.1 := by
  -- a step of another task, or one that keeps the report
  have keep : ∀ {symbol₀ : String} {task₀ : Task C K}, (symbol₀ = symbol → p ∈ task₀.emitting) →
      ∃ task', (s.tasks.insert symbol₀ task₀)[symbol]? = some task' ∧ p ∈ task'.emitting := by
    intro symbol₀ task₀ h
    rw [Maps.getElem?_insert]
    split
    · exact ⟨task₀, rfl, h ‹_›⟩
    · exact ⟨task, htask, hp⟩
  have quiet : ∀ {symbol₀ : String} {task₀ : Task C K}, s.tasks[symbol₀]? = some task₀ → task₀.emitting = [] →
      symbol₀ ≠ symbol := by
    rintro _ _ h₀ hnil rfl
    rw [htask] at h₀
    cases h₀
    rw [hnil] at hp
    cases hp
  cases hmove with
  | @enqueue _ _ _ _ _ _ hchannel =>
    refine .inl (keep fun hsymbol => ?_)
    rcases Config.channel_eq_ok hchannel with h | ⟨h, -⟩
    · rw [hsymbol, htask] at h
      cases h
      exact hp
    · rw [hsymbol, htask] at h
      cases h
  | receive h₀ _ _ hnil | crash h₀ _ _ hnil | other h₀ _ _ hnil | otherCrash h₀ _ _ hnil =>
    exact .inl (keep fun hsymbol => absurd hsymbol (quiet h₀ hnil))
  | @emit symbol₀ _ k r _ h₀ hout =>
    by_cases hsymbol : symbol₀ = symbol
    · obtain rfl := hsymbol
      rw [htask] at h₀
      cases h₀
      rw [hout] at hp
      rcases mem_cons.mp hp with rfl | hp
      · refine .inr ?_
        show r ∈ update s.down k (s.down k ++ [r]) k
        rw [update_self]
        exact mem_append_right _ (mem_singleton_self _)
      · exact .inl (keep fun _ => hp)
    · exact .inl (keep fun h => absurd h hsymbol)
  | _ => exact .inl ⟨task, htask, hp⟩

theorem Move.down_at (hmove : Move cfg s a s') {k r} (h : r ∈ s.down k) :
    r ∈ s'.down k ∨ s'.readers k = .load r := by
  have append : ∀ {k₀ : K} {r₀ : Sent C}, r ∈ update s.down k₀ (s.down k₀ ++ [r₀]) k := by
    intro k₀ r₀
    rw [update_apply]
    split
    · rename_i hk
      exact mem_append_left _ (hk ▸ h)
    · exact h
  cases hmove with
  | deny | emit => exact .inl append
  | @read k₀ _ rest _ hdown =>
    by_cases hk : k = k₀
    · obtain rfl := hk
      rw [hdown] at h
      rcases mem_cons.mp h with rfl | h
      · exact .inr (update_self ..)
      refine .inl ?_
      show r ∈ update s.down k rest k
      rwa [update_self]
    · refine .inl ?_
      show r ∈ update s.down k₀ rest k
      rwa [update_of_ne hk]
  | _ => exact .inl h

theorem Move.on_way (hmove : Move cfg s a s') {k : K} {r : Sent C} (h : OnItsWay s k r) :
    OnItsWay s' k r ∨ a = .reader k ∧ (s.readers k).sent = some r ∧ s'.readers k = .idle := by
  cases h with
  | task htask hp =>
    rcases hmove.emitting_at htask hp with ⟨_, htask', hp'⟩ | hdown
    · exact .inl (.task htask' hp')
    · exact .inl (.down hdown)
  | down hdown =>
    rcases hmove.down_at hdown with hdown | hread
    · exact .inl (.down hdown)
    · exact .inl (.reader (by rw [hread]; rfl))
  | reader hsent =>
    rcases hmove.readers_at k with hsame | rfl | rfl
    · exact .inl (.reader (by rw [hsame]; exact hsent))
    · obtain ⟨_, hidle, -⟩ := hmove.read_sent
      rw [hidle] at hsent
      cases hsent
    obtain ⟨_, hr', ⟨hgoes, -⟩ | ⟨hdone, -⟩⟩ := hmove.reader_sent
    · rw [hsent] at hr'
      cases hr'
      exact .inl (.reader hgoes)
    · exact .inr ⟨rfl, hsent, hdone⟩

theorem Move.on_way_from (hmove : Move cfg s a s') {k r} (h : OnItsWay s' k r) :
    OnItsWay s k r ∨ (k, r) ∈ s'.emitted := by
  have fromTask : ∀ {symbol₀ symbol : String} {task₀ task : Task C K},
      (s.tasks.insert symbol₀ task₀)[symbol]? = some task → (k, r) ∈ task.emitting →
      (∀ p ∈ task₀.emitting, OnItsWay s p.1 p.2 ∨ p ∈ s'.emitted) → OnItsWay s k r ∨ (k, r) ∈ s'.emitted := by
    intro symbol₀ symbol task₀ task htask hp hnew
    rw [Maps.getElem?_insert] at htask
    split at htask
    · cases htask
      exact hnew _ hp
    · exact .inl (.task htask hp)
  cases h with
  | task htask hp =>
    cases hmove with
    | @enqueue _ _ _ _ _ _ hchannel =>
      refine fromTask htask hp fun p hp => .inl ?_
      rcases Config.channel_eq_ok hchannel with h₀ | ⟨-, -, rfl⟩
      · exact .task h₀ hp
      · cases hp
    | receive => exact fromTask htask hp fun p hp => .inr (mem_append_right _ hp)
    | crash => exact fromTask htask hp fun p hp => nomatch hp
    | other => exact fromTask htask hp fun p hp => .inr (mem_append_right _ hp)
    | otherCrash h₀ => exact fromTask htask hp fun p hp => .inl (.task h₀ hp)
    | emit h₀ hout =>
      exact fromTask htask hp fun p hp => .inl (.task h₀ (by rw [hout]; exact mem_cons_of_mem _ hp))
    | _ => exact .inl (.task htask hp)
  | down hdown =>
    cases hmove with
    | @deny k₀ =>
      have hdown : r ∈ update s.down k₀ (s.down k₀ ++ [_]) k := hdown
      rw [update_apply] at hdown
      split at hdown
      · rename_i hk
        rcases mem_append.mp hdown with hdown | hdown
        · exact .inl (.down (hk ▸ hdown))
        · rw [mem_singleton.mp hdown, hk]
          exact .inr (mem_append_right _ (mem_singleton_self _))
      · exact .inl (.down hdown)
    | @emit _ _ k₀ r₀ _ htask hout =>
      have hdown : r ∈ update s.down k₀ (s.down k₀ ++ [r₀]) k := hdown
      rw [update_apply] at hdown
      split at hdown
      · rename_i hk
        rcases mem_append.mp hdown with hdown | hdown
        · exact .inl (.down (hk ▸ hdown))
        · rw [mem_singleton.mp hdown, hk]
          exact .inl (.task htask (by rw [hout]; exact mem_cons_self))
      · exact .inl (.down hdown)
    | @read k₀ _ rest _ hd =>
      have hdown : r ∈ update s.down k₀ rest k := hdown
      rw [update_apply] at hdown
      split at hdown
      · rename_i hk
        refine .inl (.down ?_)
        rw [hk, hd]
        exact mem_cons_of_mem _ hdown
      · exact .inl (.down hdown)
    | _ => exact .inl (.down hdown)
  | reader hsent =>
    rcases hmove.readers_at k with hsame | rfl | rfl
    · rw [hsame] at hsent
      exact .inl (.reader hsent)
    · obtain ⟨_, -, hhead, hload⟩ := hmove.read_sent
      rw [hload] at hsent
      cases hsent
      exact .inl (.down (mem_of_mem_head? hhead))
    obtain ⟨_, hr', ⟨hgoes, -⟩ | ⟨hdone, -⟩⟩ := hmove.reader_sent
    · rw [hsent] at hgoes
      cases hgoes
      exact .inl (.reader hr')
    · rw [hdone] at hsent
      cases hsent

/-- A request is on its way to the core, in the core, or what a report of the core was made for. -/
inductive Away (s : Network C K) (e : Entry C) : Prop
  | up {k} (h : e ∈ s.up k)
  | hand {k} (h : s.hand k = some e)
  | inbox {symbol} (h : e ∈ s.inbox symbol)
  | source {p} (hp : p ∈ s.emitted) (h : p.2.source = some e)

theorem Move.away (hmove : Move cfg s a s') {e} (h : Away s' e) :
    Away s e ∨ ∃ c k stored, a = .write c k ∧ s.handlers c = .write e stored := by
  cases h with
  | up h =>
    rcases hmove.up_entry h with h | ⟨c, stored, ha, hat⟩
    · exact .inl (.up h)
    · exact .inr ⟨c, _, stored, ha, hat⟩
  | hand h =>
    rcases hmove.hand_entry h with h | h
    · exact .inl (.hand h)
    · exact .inl (.up h)
  | @inbox symbol h =>
    rcases hmove.inbox symbol with hinbox | ⟨_, _, hhand, -, -, -, -, -, hinbox⟩
    · exact .inl (.inbox (hinbox ▸ h))
    rw [hinbox] at h
    rcases mem_append.mp h with h | h
    · exact .inl (.inbox h)
    · exact .inl (.hand (mem_singleton.mp h ▸ hhand))
  | source hp h =>
    obtain ⟨_, hemitted, -, hsource⟩ := hmove.emitted
    rw [hemitted] at hp
    rcases mem_append.mp hp with hp | hp
    · exact .inl (.source hp h)
    rcases hsource _ hp e h with ⟨_, hhand⟩ | ⟨_, hinbox⟩
    · exact .inl (.hand hhand)
    · exact .inl (.inbox hinbox)

/-- The numbers of requests tell them apart: one that has left its handler is not in a handler again. -/
structure Numbered (s : Network C K) : Prop where
  own : s.HandlersOwn
  entry : ∀ c e, (s.handlers c).entry = some e → e.serial < s.sent c
  away : ∀ e, Away s e → e.serial < s.sent e.client
  order : ∀ e, Away s e → ∀ e', (s.handlers e.client).entry = some e' → e.serial < e'.serial
  onWay : ∀ k r, OnItsWay s k r → (k, r) ∈ s.emitted
  got : ∀ d ∈ s.delivered, ∀ r, d.source = some r → ∃ k, (k, r) ∈ s.emitted

omit [DecidableEq C] [DecidableEq K] in
theorem Numbered.init : Numbered ({} : Network C K) where
  own c e he := by cases he
  entry c e he := by cases he
  away e he := by
    cases he with
    | up h | hand h => cases h
    | inbox h => simp [inbox] at h
    | source hp => cases hp
  order e he e' he' := by cases he'
  onWay k r h := by
    cases h with
    | task htask => simp at htask
    | down h | reader h => cases h
  got d hd := by cases hd

omit [DecidableEq C] [DecidableEq K] in
theorem Numbered.not_in_handler (h : Numbered s) {e} (he : Away s e) {c} :
    (s.handlers c).entry ≠ some e := by
  intro hc
  obtain rfl := h.own c e hc
  exact lt_irrefl _ (h.order e he e hc)

theorem Move.sent_le (hmove : Move cfg s a s') (c : C) : s.sent c ≤ s'.sent c := by
  have step : ∀ c₀, s.sent c ≤ update s.sent c₀ (s.sent c₀ + 1) c := by
    intro c₀
    rw [update_apply]
    split
    · rename_i hc
      rw [hc]
      omega
    · exact le_refl _
  cases hmove with
  | refuse | start => exact step _
  | _ => exact le_refl _

theorem Move.emitted_mono (hmove : Move cfg s a s') {p} (hp : p ∈ s.emitted) : p ∈ s'.emitted := by
  obtain ⟨_, hemitted, -⟩ := hmove.emitted
  rw [hemitted]
  exact mem_append_left _ hp

/-- A report is delivered by its reader, or comes from the gateway itself. -/
theorem Move.delivered_from (hmove : Move cfg s a s') {d} (hd : d ∈ s'.delivered) :
    d ∈ s.delivered ∨ d.source = none ∨ ∃ k route rest r, s.readers k = .deliver route (d.client :: rest) r ∧
      d.source = some r := by
  cases hmove with
  | refuse =>
    rcases mem_append.mp hd with hd | hd
    · exact .inl hd
    · rw [mem_singleton.mp hd]
      exact .inr (.inl rfl)
  | @deliver k r route c rest hat =>
    have hd : d ∈ if s.closed c then s.delivered
      else s.delivered ++ [{ client := c, report := stripOwner route.owner r.report, source := some r }] := hd
    split at hd
    · exact .inl hd
    rcases mem_append.mp hd with hd | hd
    · exact .inl hd
    · rw [mem_singleton.mp hd]
      exact .inr (.inr ⟨k, route, rest, r, hat, rfl⟩)
  | _ => exact .inl hd

theorem Numbered.move (h : Numbered s) (hmove : Move cfg s a s') : Numbered s' where
  own := h.own.move hmove
  entry c e he := by
    rcases hmove.handler_entry he with he | ⟨_, _, rfl, _, _, rfl⟩
    · exact lt_of_lt_of_le (h.entry c e he) (hmove.sent_le c)
    have hsent : s'.sent c = s.sent c + 1 := by
      cases hmove with
      | refuse | start => exact update_self ..
    rw [hsent]
    exact Nat.lt_succ_self _
  away e he := by
    rcases hmove.away he with he | ⟨c, _, _, rfl, hat⟩
    · exact lt_of_lt_of_le (h.away e he) (hmove.sent_le _)
    have hentry : (s.handlers c).entry = some e := by rw [hat]; rfl
    have hclient := h.own c e hentry
    exact lt_of_lt_of_le (hclient ▸ h.entry c e hentry) (hmove.sent_le _)
  order e he e' he' := by
    rcases hmove.away he with he | ⟨c, _, _, rfl, hat⟩
    · rcases hmove.handler_entry he' with he' | ⟨_, _, -, -, -, rfl⟩
      · exact h.order e he e' he'
      · exact h.away e he
    have hclient := h.own c e (by rw [hat]; rfl)
    -- the handler that wrote the request is idle
    cases hmove with
    | write =>
      have hidle : update s.handlers c .idle e.client = .idle := by rw [hclient, update_self]
      have he' : (update s.handlers c .idle e.client).entry = some e' := he'
      rw [hidle] at he'
      cases he'
  onWay k r hr := by
    rcases hmove.on_way_from hr with hr | hr
    · exact hmove.emitted_mono (h.onWay k r hr)
    · exact hr
  got d hd r hr := by
    rcases hmove.delivered_from hd with hd | hnone | ⟨k, _, _, _, hat, hsource⟩
    · obtain ⟨k, hk⟩ := h.got d hd r hr
      exact ⟨k, hmove.emitted_mono hk⟩
    · rw [hnone] at hr
      cases hr
    rw [hr] at hsource
    cases hsource
    exact ⟨k, hmove.emitted_mono (h.onWay k r (.reader (by rw [hat]; rfl)))⟩

end Fxp.Gateway
