import Fxp.Gateway.Network

/-!
# What a step can do

`Move` lists the steps of the system one by one, each with the state it is taken in and the state it leads to.
-/

namespace Fxp.Gateway

open Machine Function Option

variable {C K : Type} [DecidableEq C] [DecidableEq K]

namespace Network

/-- The bound request of a client that its handler takes up. -/
def nextEntry (c : C) (trader : String) (m : Request) (s : Network C K) : Entry C :=
  { client := c, serial := s.sent c, request := bindOwner trader m }

/-- Where a reader goes on after the delivery of a report. -/
def afterDelivery (route : OrderRoute C) (r : Sent C) : Reader C :=
  if requestReject r.report then .dropRoute route r
  else if r.report.orderStatus = .replaced then .clearPending route r
  else .finish route r

/-- Where a reader goes on with a report whose route it has found. -/
def afterLoad (route : OrderRoute C) (r : Sent C) : Reader C :=
  if isRequestReply r.report then .reply route r else .deliver route [route.conn] r

end Network

open Network

inductive Move (cfg : Config K) (s : Network C K) : Action C K → Network C K → Prop
  | logon {c trader} (hidle : s.handlers c = .idle) (hopen : s.closed c = false)
    (hne : trader ≠ "") :
    Move cfg s (.logon c trader) { s with sessions := update s.sessions c (some trader) }
  | close {c} :
    Move cfg s (.close c) { s with closed := update s.closed c true }
  /-- the gateway itself rejects a message -/
  | refuse {c m trader} (hidle : s.handlers c = .idle)
    (hsession : s.sessions c = some trader) :
    Move cfg s (.message c m)
      { s with
        sent := update s.sent c (s.sent c + 1)
        delivered := s.delivered ++
          [{ client := c, source := none
             report := orderReject (bindOwner trader m) (validateOrderEnums (bindOwner trader m)) }] }
  | start {c m trader} (hidle : s.handlers c = .idle)
    (hsession : s.sessions c = some trader) (hvalid : validateOrderEnums (bindOwner trader m) = "") :
    Move cfg s (.message c m)
      { s with
        sent := update s.sent c (s.sent c + 1)
        handlers := update s.handlers c (firstState (s.nextEntry c trader m))
        outstanding :=
          if (bindOwner trader m).isChange then s.outstanding ++ [s.nextEntry c trader m] else s.outstanding }
  | replacementKnown {c e route} (hat : s.handlers c = .registerNew e)
    (hroute : s.orderClientMap[e.request.newOrderId]? = some route) :
    Move cfg s (.handler c) (s.setHandler c (.register e))
  | registerReplacement {c e} (hat : s.handlers c = .registerNew e)
    (hroute : s.orderClientMap[e.request.newOrderId]? = none) :
    Move cfg s (.handler c)
      ((s.setHandler c (.storePending e)).storeRoute e.request.newOrderId (e.route true))
  | storePending {c e} (hat : s.handlers c = .storePending e) :
    Move cfg s (.handler c)
      { s.setHandler c (.register e) with
        pendingReplace := s.pendingReplace.insert e.request.orderId (e.request.newOrderId, e) }
  | registerOrder {c e} (hat : s.handlers c = .register e)
    (hnew : e.request.isChange = false) :
    Move cfg s (.handler c) ((s.setHandler c (.write e true)).storeRoute e.request.orderId (e.route false))
  | targetKnown {c e route} (hat : s.handlers c = .register e)
    (hchange : e.request.isChange = true) (hroute : s.orderClientMap[e.request.orderId]? = some route) :
    Move cfg s (.handler c) (s.setHandler c (.lookup e))
  | registerTarget {c e} (hat : s.handlers c = .register e)
    (hchange : e.request.isChange = true) (hroute : s.orderClientMap[e.request.orderId]? = none) :
    Move cfg s (.handler c) ((s.setHandler c (.write e true)).storeRoute e.request.orderId (e.route true))
  | foreign {c e route} (hat : s.handlers c = .lookup e)
    (hroute : s.orderClientMap[e.request.orderId]? = some route) (hconn : route.conn ≠ e.client) :
    Move cfg s (.handler c) (s.setHandler c (.storeInflight e))
  | own {c e} (hat : s.handlers c = .lookup e)
    (hconn : ∀ route, s.orderClientMap[e.request.orderId]? = some route → route.conn = e.client) :
    Move cfg s (.handler c) (s.setHandler c (.write e false))
  | storeInflight {c e} (hat : s.handlers c = .storeInflight e) :
    Move cfg s (.handler c)
      { s.setHandler c (.write e false) with
        inflightRequests := s.inflightRequests.insert e.request.orderId e.client }
  | forget {c e} (hat : s.handlers c = .forget e) :
    Move cfg s (.handler c) ((s.setHandler c (.forgetInflight e)).deleteRoute e.request.orderId)
  | forgetInflight {c e} (hat : s.handlers c = .forgetInflight e) :
    Move cfg s (.handler c)
      { (s.setHandler c .idle).deleteInflight e.request.orderId with
        outstanding := s.outstanding.filter (· ≠ e) }
  | write {c k e stored} (hat : s.handlers c = .write e stored) :
    Move cfg s (.write c k) { s.setHandler c .idle with up := update s.up k (s.up k ++ [e]) }
  | fail {c e stored} (hat : s.handlers c = .write e stored) :
    Move cfg s (.fail c) (s.setHandler c (if stored then .forget e else .forgetInflight e))
  | coreRead {k e rest} (hhand : s.hand k = none)
    (hup : s.up k = e :: rest) :
    Move cfg s (.coreRead k)
      { s with hand := update s.hand k (some e), up := update s.up k rest }
  | deny {k now e reason} (hhand : s.hand k = some e)
    (hchannel : cfg.channel now e.request s.tasks = .error reason) :
    Move cfg s (.coreRoute k now)
      { s with
        hand := update s.hand k none
        down := update s.down k (s.down k ++ [⟨serverReject now reason e.request, some e⟩])
        emitted := s.emitted ++ [(k, ⟨serverReject now reason e.request, some e⟩)] }
  | lose {k now e task} (hhand : s.hand k = some e)
    (hchannel : cfg.channel now e.request s.tasks = .ok task) (hengine : task.engine = none) :
    Move cfg s (.coreRoute k now) { s with hand := update s.hand k none }
  | enqueue {k now e task engine}
    (hhand : s.hand k = some e) (hchannel : cfg.channel now e.request s.tasks = .ok task)
    (hengine : task.engine = some engine) :
    Move cfg s (.coreRoute k now)
      { s.setTask e.request.symbol { task with queue := task.queue ++ [(k, e)] } with
        hand := update s.hand k none }
  | receive {symbol clock task engine k e rest ticked done} (htask : s.tasks[symbol]? = some task)
    (hqueue : task.queue = (k, e) :: rest) (hengine : task.engine = some engine) (hsent : task.emitting = [])
    (hcall : outcome clock (e.request.op k) engine = .ok (ticked, done)) :
    Move cfg s (.receive symbol clock)
      { s.setTask symbol
          { engine := some done.engine, queue := rest, emitting := outcomeSends (some e) ticked done
            received := task.received ++ [e] } with
        emitted := s.emitted ++ outcomeSends (some e) ticked done }
  | crash {symbol clock task engine k e rest p} (htask : s.tasks[symbol]? = some task)
    (hqueue : task.queue = (k, e) :: rest) (hengine : task.engine = some engine) (hsent : task.emitting = [])
    (hcall : outcome clock (e.request.op k) engine = .error p) :
    Move cfg s (.receive symbol clock)
      (s.setTask symbol { engine := none, queue := rest, emitting := [], received := task.received ++ [e] })
  | other {symbol clock op task engine ticked done} (htask : s.tasks[symbol]? = some task) (hop : isOther op = true)
    (hengine : task.engine = some engine) (hsent : task.emitting = [])
    (hcall : outcome clock op engine = .ok (ticked, done)) :
    Move cfg s (.other symbol clock op)
      { s.setTask symbol { task with engine := some done.engine, emitting := outcomeSends none ticked done } with
        emitted := s.emitted ++ outcomeSends none ticked done }
  | otherCrash {symbol clock op task engine p} (htask : s.tasks[symbol]? = some task)
    (hop : isOther op = true) (hengine : task.engine = some engine)
    (hsent : task.emitting = []) (hcall : outcome clock op engine = .error p) :
    Move cfg s (.other symbol clock op) (s.setTask symbol { task with engine := none })
  | emit {symbol task k r rest}
    (htask : s.tasks[symbol]? = some task) (hout : task.emitting = (k, r) :: rest) :
    Move cfg s (.emit symbol)
      { s.setTask symbol { task with emitting := rest } with down := update s.down k (s.down k ++ [r]) }
  | read {k r rest} (hidle : s.readers k = .idle)
    (hdown : s.down k = r :: rest) :
    Move cfg s (.read k) { s.setReader k (.load r) with down := update s.down k rest }
  | unrouted {k r} (hat : s.readers k = .load r)
    (hroute : s.orderClientMap[r.report.orderId]? = none) : Move cfg s (.reader k) (s.settle k r)
  | load {k r route} (hat : s.readers k = .load r)
    (hroute : s.orderClientMap[r.report.orderId]? = some route) :
    Move cfg s (.reader k) (s.setReader k (afterLoad route r))
  | replyOwn {k r route} (hat : s.readers k = .reply route r)
    (hinflight : s.inflightRequests[r.report.orderId]? = none) :
    Move cfg s (.reader k) (s.setReader k (.deliver route [route.conn] r))
  | replyForeign {k r route req}
    (hat : s.readers k = .reply route r) (hinflight : s.inflightRequests[r.report.orderId]? = some req) :
    Move cfg s (.reader k)
      ((s.setReader k (.deliver route (if requestReject r.report then [req] else [route.conn, req]) r)).deleteInflight
        r.report.orderId)
  | deliver {k r route c rest}
    (hat : s.readers k = .deliver route (c :: rest) r) :
    Move cfg s (.reader k)
      { s.setReader k (.deliver route rest r) with
        delivered :=
          if s.closed c then s.delivered
          else s.delivered ++ [{ client := c, report := stripOwner route.owner r.report, source := some r }] }
  | delivered {k r route} (hat : s.readers k = .deliver route [] r) :
    Move cfg s (.reader k) (s.setReader k (afterDelivery route r))
  | dropRoute {k r route} (hat : s.readers k = .dropRoute route r)
    (hprov : route.provisional = true) :
    Move cfg s (.reader k) ((s.deleteRoute r.report.orderId).setReader k (.takePending r))
  | keepRoute {k r route} (hat : s.readers k = .dropRoute route r)
    (hprov : route.provisional = false) : Move cfg s (.reader k) (s.setReader k (.takePending r))
  | noPending {k r} (hat : s.readers k = .takePending r)
    (hpending : s.pendingReplace[r.report.orderId]? = none) : Move cfg s (.reader k) (s.settle k r)
  | takePending {k r newID e}
    (hat : s.readers k = .takePending r) (hpending : s.pendingReplace[r.report.orderId]? = some (newID, e)) :
    Move cfg s (.reader k) ((s.setReader k (.dropLoad newID r)).deletePending r.report.orderId)
  | dropLoad {k r newID route}
    (hat : s.readers k = .dropLoad newID r) (hroute : s.orderClientMap[newID]? = some route)
    (hprov : route.provisional = true) : Move cfg s (.reader k) (s.setReader k (.dropDelete newID r))
  | keep {k r newID} (hat : s.readers k = .dropLoad newID r)
    (hprov : ∀ route, s.orderClientMap[newID]? = some route → route.provisional = false) :
    Move cfg s (.reader k) (s.settle k r)
  | dropDelete {k r newID} (hat : s.readers k = .dropDelete newID r) :
    Move cfg s (.reader k) ((s.deleteRoute newID).settle k r)
  | clearPending {k r route}
    (hat : s.readers k = .clearPending route r) :
    Move cfg s (.reader k) ((s.setReader k (.finish route r)).deletePending r.report.orderId)
  /-- the order is done -/
  | retire {k r route} (hat : s.readers k = .finish route r)
    (hterminal : terminal r.report = true) :
    Move cfg s (.reader k) ((s.deleteRoute r.report.orderId).settle k r)
  | promote {k r route} (hat : s.readers k = .finish route r)
    (hterminal : terminal r.report = false) (hprov : route.provisional = true) :
    Move cfg s (.reader k)
      ((s.storeRoute r.report.orderId { route with provisional := false }).settle k r)
  | finish {k r route} (hat : s.readers k = .finish route r)
    (hterminal : terminal r.report = false) (hprov : route.provisional = false) :
    Move cfg s (.reader k) (s.settle k r)

namespace Network

variable {cfg : Config K} {s s' : Network C K}

private theorem message_move {c m} (h : s.message c m = some s') : Move cfg s (.message c m) s' := by
  unfold message at h
  split at h <;> first | cases h | (dsimp only at h; split at h <;> cases h)
  · rename_i hsession hidle _ _
    exact .refuse hidle hsession
  · rename_i hsession hidle _ hvalid
    exact .start hidle hsession (not_not.mp hvalid)

omit [DecidableEq C] [DecidableEq K] in
private theorem not_contains_iff {id} : ¬ s.orderClientMap.contains id = true ↔ s.orderClientMap[id]? = none := by
  rw [Bool.not_eq_true, Maps.contains_eq_false_iff]

private theorem handler_move {c} (h : s.handler c = some s') : Move cfg s (.handler c) s' := by
  unfold handler at h
  -- what is left are the branches in which there is a step
  split at h <;> first | cases h | (split at h <;> first | cases h | (split at h <;> cases h))
  · rename_i hat hknown
    obtain ⟨_, hr⟩ := Maps.contains_iff.mp hknown
    exact .replacementKnown hat hr
  · rename_i hat hknown
    exact .registerReplacement hat (not_contains_iff.mp hknown)
  · exact .storePending ‹_›
  · rename_i hat hchange hknown
    obtain ⟨_, hr⟩ := Maps.contains_iff.mp hknown
    exact .targetKnown hat hchange hr
  · rename_i hat hchange hknown
    exact .registerTarget hat hchange (not_contains_iff.mp hknown)
  · rename_i hat hnew
    exact .registerOrder hat (Bool.eq_false_iff.mpr hnew)
  · rename_i hat hforeign
    obtain ⟨_, hr, hconn⟩ := (any_eq_true _ _).mp hforeign
    exact .foreign hat hr (by simpa using hconn)
  · rename_i hat hown
    refine .own hat fun _ hroute => ?_
    rw [hroute] at hown
    simpa using hown
  · exact .storeInflight ‹_›
  · exact .forget ‹_›
  · exact .forgetInflight ‹_›

private theorem coreRoute_move {k now} (h : s.coreRoute cfg k now = some s') :
    Move cfg s (.coreRoute k now) s' := by
  unfold coreRoute at h
  split at h <;> first | cases h | (dsimp only at h; split at h <;> first | cases h | (split at h <;> cases h))
  · rename_i hhand _ task hchannel hengine
    exact .lose hhand hchannel (isNone_iff_eq_none.mp hengine)
  · rename_i hhand _ task hchannel hengine
    obtain ⟨_, hengine⟩ := ne_none_iff_exists'.mp (mt isNone_iff_eq_none.mpr hengine)
    exact .enqueue hhand hchannel hengine
  · rename_i hhand _ reason hchannel
    exact .deny hhand hchannel

private theorem receive_move {symbol clock} (h : s.receive symbol clock = some s') :
    Move cfg s (.receive symbol clock) s' := by
  unfold receive call at h
  split at h <;> first | cases h |
    (split at h <;> first | cases h | (split at h <;> first | cases h | (split at h <;> cases h)))
  · rename_i task htask _ _ _ _ hqueue _ _ _ hengine hsent _ _ _ hcall
    exact .receive htask hqueue hengine hsent hcall
  rename_i task htask _ _ _ _ hqueue _ _ _ hengine hsent _ _ hcall
  rw [show task.emitting = [] from hsent]
  exact .crash htask hqueue hengine hsent hcall

private theorem other_move {symbol clock op} (h : s.other symbol clock op = some s') :
    Move cfg s (.other symbol clock op) s' := by
  unfold other call at h
  split at h <;> first | cases h |
    (split at h <;> first | cases h | (split at h <;> first | cases h | (split at h <;> cases h)))
  · rename_i htask hop _ _ _ hengine hsent _ _ _ hcall
    exact .other htask hop hengine hsent hcall
  · rename_i htask hop _ _ _ hengine hsent _ _ hcall
    exact .otherCrash htask hop hengine hsent hcall

private theorem reader_move {k} (h : s.reader k = some s') : Move cfg s (.reader k) s' := by
  unfold reader at h
  split at h
  · cases h
  · rename_i r hat
    split at h
    · rename_i hroute
      cases h
      exact .unrouted hat hroute
    rename_i route hroute
    have hmove : Move cfg s (.reader k) (s.setReader k (afterLoad route r)) := .load hat hroute
    unfold afterLoad at hmove
    split at h <;> cases h
    · rwa [if_pos ‹_›] at hmove
    · rwa [if_neg ‹_›] at hmove
  all_goals first | cases h | (split at h <;> first | cases h | (split at h <;> cases h))
  · rename_i hat _ hinflight
    exact .replyOwn hat hinflight
  · rename_i hat _ req hinflight
    exact .replyForeign hat hinflight
  · exact .deliver ‹_›
  · exact .delivered ‹_›
  · rename_i route r hat
    cases hprov : route.provisional with
    | true => exact .dropRoute hat hprov
    | false => exact .keepRoute hat hprov
  · rename_i hat _ hpending
    exact .noPending hat hpending
  · rename_i hat _ newID e hpending
    exact .takePending hat hpending
  · rename_i hat hprov
    obtain ⟨_, hroute, hprov⟩ := (any_eq_true _ _).mp hprov
    exact .dropLoad hat hroute hprov
  · rename_i hat hprov
    refine .keep hat fun route hroute => ?_
    rw [hroute] at hprov
    simpa using hprov
  · exact .dropDelete ‹_›
  · exact .clearPending ‹_›
  · rename_i hat hterminal
    exact .retire hat hterminal
  · rename_i hat hterminal hprov
    exact .promote hat (Bool.eq_false_iff.mpr hterminal) hprov
  · rename_i hat hterminal hprov
    exact .finish hat (Bool.eq_false_iff.mpr hterminal) (Bool.eq_false_iff.mpr hprov)

theorem step_move {a} (h : step cfg a s = some s') : Move cfg s a s' := by
  cases a with
  | logon =>
    obtain ⟨hok, h⟩ := ite_none_right_eq_some.1 h
    cases h
    exact .logon hok.1 hok.2.1 hok.2.2
  | close =>
    cases h
    exact .close
  | message => exact message_move h
  | handler => exact handler_move h
  | write =>
    simp only [step, write] at h
    split at h <;> cases h
    exact .write ‹_›
  | fail =>
    simp only [step, fail] at h
    split at h <;> cases h
    exact .fail ‹_›
  | coreRead =>
    simp only [step, coreRead] at h
    split at h <;> cases h
    exact .coreRead ‹_› ‹_›
  | coreRoute => exact coreRoute_move h
  | receive => exact receive_move h
  | other => exact other_move h
  | emit =>
    simp only [step, emit] at h
    split at h <;> first | cases h | (split at h <;> cases h)
    exact .emit ‹_› ‹_›
  | read =>
    simp only [step, read] at h
    split at h <;> cases h
    exact .read ‹_› ‹_›
  | reader => exact reader_move h

end Network

variable {cfg : Config K} {a : Action C K} {s s' : Network C K}

theorem Move.handler_eq {c} (hmove : Move cfg s (.handler c) s') : s.handler c = some s' := by
  unfold Network.handler
  cases hmove with
  | own hat hconn =>
    simp only [hat]
    refine if_neg fun hforeign => ?_
    obtain ⟨route, hroute, hne⟩ := (any_eq_true _ _).mp hforeign
    simp [hconn route hroute] at hne
  | _ => simp_all [Maps.contains_eq_false_iff.mpr, Maps.contains_iff.mpr]

theorem Move.reader_eq {k} (hmove : Move cfg s (.reader k) s') : s.reader k = some s' := by
  unfold Network.reader
  cases hmove with
  | load hat hroute =>
    simp only [hat, hroute, afterLoad]
    split <;> rfl
  | keep hat hprov =>
    simp only [hat]
    refine if_neg fun hdrop => ?_
    obtain ⟨route, hroute, htrue⟩ := (any_eq_true _ _).mp hdrop
    simp [hprov route hroute] at htrue
  | _ => simp_all [afterDelivery]

omit [DecidableEq K] in
/-- A handler that stays with its request, or drops it, brings no other request. -/
theorem entry_update {c c' h e}
    (hh : ∀ e, h.entry = some e → (s.handlers c).entry = some e)
    (he : (update s.handlers c h c').entry = some e) : (s.handlers c').entry = some e := by
  rw [update_apply] at he
  split at he
  · rename_i hc
    rw [hc]
    exact hh e he
  · exact he

/-- A handler is at work on what it was at work on before, or on the next message of its client. -/
theorem Move.handler_entry (hmove : Move cfg s a s') {c e} (h : (s'.handlers c).entry = some e) :
    (s.handlers c).entry = some e ∨
      ∃ m trader, a = .message c m ∧ s.sessions c = some trader ∧ s.handlers c = .idle ∧
      e = s.nextEntry c trader m := by
  cases hmove with
  | @start c₀ m trader hidle hsession =>
    have h : (update s.handlers c₀ (firstState (s.nextEntry c₀ trader m)) c).entry = some e := h
    rw [update_apply] at h
    split at h
    · rename_i hc
      obtain rfl := hc
      refine .inr ⟨m, trader, rfl, hsession, hidle, ?_⟩
      unfold firstState at h
      split at h <;> exact (Option.some.inj h).symm
    · exact .inl h
  | replacementKnown hat | registerReplacement hat | storePending hat | registerOrder hat | targetKnown hat
  | registerTarget hat | foreign hat | own hat | storeInflight hat | forget hat =>
    exact .inl (entry_update (fun e he => by rw [hat]; exact he) h)
  | forgetInflight hat | write hat => exact .inl (entry_update (fun e he => absurd he (by simp [Handler.entry])) h)
  | fail hat =>
    refine .inl (entry_update (fun e he => ?_) h)
    rw [hat]
    split at he <;> exact he
  | _ => exact .inl h

theorem Move.up_entry (hmove : Move cfg s a s') {k e} (h : e ∈ s'.up k) :
    e ∈ s.up k ∨ ∃ c stored, a = .write c k ∧ s.handlers c = .write e stored := by
  cases hmove with
  | @write c k₀ e₀ stored hat =>
    have h : e ∈ update s.up k₀ (s.up k₀ ++ [e₀]) k := h
    rw [update_apply] at h
    split at h
    · rename_i hk
      obtain rfl := hk
      rcases List.mem_append.mp h with h | h
      · exact .inl h
      · exact .inr ⟨c, stored, rfl, List.mem_singleton.mp h ▸ hat⟩
    · exact .inl h
  | @coreRead k₀ _ rest _ hup =>
    have h : e ∈ update s.up k₀ rest k := h
    rw [update_apply] at h
    split at h
    · rename_i hk
      rw [hk, hup]
      exact .inl (List.mem_cons_of_mem _ h)
    · exact .inl h
  | _ => exact .inl h

theorem Move.hand_entry (hmove : Move cfg s a s') {k e} (h : s'.hand k = some e) :
    s.hand k = some e ∨ e ∈ s.up k := by
  -- a reader that is done with its request has none
  have drop : ∀ k₀, update s.hand k₀ none k = some e → s.hand k = some e := by
    intro k₀ h
    rw [update_apply] at h
    split at h
    · cases h
    · exact h
  cases hmove with
  | @coreRead k₀ e₀ _ _ hup =>
    have h : update s.hand k₀ (some e₀) k = some e := h
    rw [update_apply] at h
    split at h
    · rename_i hk
      cases h
      rw [hk, hup]
      exact .inr List.mem_cons_self
    · exact .inl h
  | deny | lose | enqueue => exact .inl (drop _ h)
  | _ => exact .inl h

omit [DecidableEq C] [DecidableEq K] in
/-- A request that the core has room for was sent to a task that is there, or that is made for it. -/
theorem Config.channel_eq_ok {now : Time} {m : Request} {tasks : HashMap (Task C K)} {task : Task C K}
    (h : cfg.channel now m tasks = .ok task) :
    tasks[m.symbol]? = some task ∨ tasks[m.symbol]? = none ∧ m.isChange = false ∧
      task = { engine := some (cfg.engine m.symbol now) } := by
  unfold channel at h
  split at h
  · split at h
    · cases h
      exact .inl ‹_›
    · cases h
  rename_i hnew
  split at h
  · cases h
  split at h
  · cases h
    exact .inl ‹_›
  split at h
  · cases h
  split at h
  · cases h
  · cases h
    exact .inr ⟨‹_›, Bool.eq_false_iff.mpr hnew, rfl⟩

/-- All requests that a task has received and will receive, in this order. -/
def Network.inbox (s : Network C K) (symbol : String) : List (Entry C) :=
  (s.tasks[symbol]?.map fun task => task.received ++ task.queue.map Prod.snd).getD []

omit [DecidableEq C] [DecidableEq K] in
theorem Network.inbox_of_task {symbol task} (h : s.tasks[symbol]? = some task) :
    s.inbox symbol = task.received ++ task.queue.map Prod.snd := by
  rw [inbox, h]
  rfl

omit [DecidableEq C] [DecidableEq K] in
theorem Network.inbox_setTask (symbol symbol' : String) (task : Task C K) (s : Network C K) :
    (s.setTask symbol task).inbox symbol' =
      if symbol = symbol' then task.received ++ task.queue.map Prod.snd else s.inbox symbol' := by
  simp only [inbox, setTask, Maps.getElem?_insert]
  split <;> rfl

/-- A task gets a request at the end, from the reader of a connection, or its requests stay the same. -/
theorem Move.inbox (hmove : Move cfg s a s') (symbol : String) :
    s'.inbox symbol = s.inbox symbol ∨
      ∃ k e, s.hand k = some e ∧ e.request.symbol = symbol ∧ s'.hand k = none ∧
        (∀ k', k' ≠ k → s'.hand k' = s.hand k') ∧
        s'.up = s.up ∧ s'.handlers = s.handlers ∧ s'.inbox symbol = s.inbox symbol ++ [e] := by
  -- a task that goes on with the same requests
  have same : ∀ {symbol₀ : String} {task task' : Task C K}, s.tasks[symbol₀]? = some task →
      task'.received ++ task'.queue.map Prod.snd = task.received ++ task.queue.map Prod.snd →
      (s.setTask symbol₀ task').inbox symbol = s.inbox symbol := by
    intro symbol₀ task task' htask heq
    rw [inbox_setTask]
    split
    · rename_i hsymbol
      rw [← hsymbol, inbox_of_task htask, heq]
    · rfl
  cases hmove with
  | @enqueue k _ e task _ hhand hchannel =>
    by_cases hsymbol : e.request.symbol = symbol
    · refine .inr ⟨k, e, hhand, hsymbol, update_self .., fun k' hk => update_of_ne hk .., rfl, rfl, ?_⟩
      have hold : s.inbox symbol = task.received ++ task.queue.map Prod.snd := by
        rcases Config.channel_eq_ok hchannel with htask | ⟨hnone, -, rfl⟩
        · exact inbox_of_task (hsymbol ▸ htask)
        · rw [Network.inbox, ← hsymbol, hnone]
          rfl
      show (s.setTask e.request.symbol { task with queue := task.queue ++ [(k, e)] }).inbox symbol = _
      rw [inbox_setTask, if_pos hsymbol, hold]
      simp
    · refine .inl ?_
      show (s.setTask e.request.symbol { task with queue := task.queue ++ [(k, e)] }).inbox symbol = _
      rw [inbox_setTask, if_neg hsymbol]
  | receive htask hqueue | crash htask hqueue => exact .inl (same htask (by simp [hqueue]))
  | other htask | otherCrash htask | emit htask => exact .inl (same htask rfl)
  | _ => exact .inl rfl

/-- The ways in which a step changes the route of `id`. -/
inductive RouteEdit (s : Network C K) (id : String) : Action C K → Option (OrderRoute C) → Prop
  | replacement {c : C} {e : Entry C} (hat : s.handlers c = .registerNew e) (hid : e.request.newOrderId = id)
    (hnone : s.orderClientMap[id]? = none) : RouteEdit s id (.handler c) (some (e.route true))
  | order {c : C} {e : Entry C} (hat : s.handlers c = .register e) (hid : e.request.orderId = id)
    (hnew : e.request.isChange = false) : RouteEdit s id (.handler c) (some (e.route false))
  | target {c : C} {e : Entry C} (hat : s.handlers c = .register e) (hid : e.request.orderId = id)
    (hchange : e.request.isChange = true) (hnone : s.orderClientMap[id]? = none) :
    RouteEdit s id (.handler c) (some (e.route true))
  | forget {c : C} {e : Entry C} (hat : s.handlers c = .forget e) (hid : e.request.orderId = id) :
    RouteEdit s id (.handler c) none
  | drop {k : K} {route : OrderRoute C} {r : Sent C} (hat : s.readers k = .dropRoute route r)
    (hid : r.report.orderId = id) (hprov : route.provisional = true) : RouteEdit s id (.reader k) none
  | dropReplacement {k : K} {r : Sent C} (hat : s.readers k = .dropDelete id r) : RouteEdit s id (.reader k) none
  | retire {k : K} {route : OrderRoute C} {r : Sent C} (hat : s.readers k = .finish route r)
    (hid : r.report.orderId = id) (hterminal : terminal r.report = true) : RouteEdit s id (.reader k) none
  | promote {k : K} {route : OrderRoute C} {r : Sent C} (hat : s.readers k = .finish route r)
    (hid : r.report.orderId = id) (hterminal : terminal r.report = false) :
    RouteEdit s id (.reader k) (some { route with provisional := false })

omit [DecidableEq C] [DecidableEq K] in
private theorem route_store {id id₀ r} (h : id₀ = id → RouteEdit s id a (some r)) :
    (s.orderClientMap.insert id₀ r)[id]? = s.orderClientMap[id]? ∨
      RouteEdit s id a (s.orderClientMap.insert id₀ r)[id]? := by
  rw [Maps.getElem?_insert]
  split
  · exact .inr (h ‹_›)
  · exact .inl rfl

omit [DecidableEq C] [DecidableEq K] in
private theorem route_delete {id id₀} (h : id₀ = id → RouteEdit s id a none) :
    (s.orderClientMap.erase id₀)[id]? = s.orderClientMap[id]? ∨ RouteEdit s id a (s.orderClientMap.erase id₀)[id]? := by
  rw [Maps.getElem?_erase]
  split
  · exact .inr (h ‹_›)
  · exact .inl rfl

theorem Move.route_at (hmove : Move cfg s a s') (id : String) :
    s'.orderClientMap[id]? = s.orderClientMap[id]? ∨ RouteEdit s id a s'.orderClientMap[id]? := by
  cases hmove with
  | registerReplacement hat hroute => exact route_store fun hid => .replacement hat hid (hid ▸ hroute)
  | registerOrder hat hnew => exact route_store fun hid => .order hat hid hnew
  | registerTarget hat hchange hroute => exact route_store fun hid => .target hat hid hchange (hid ▸ hroute)
  | forget hat => exact route_delete fun hid => .forget hat hid
  | dropRoute hat hprov => exact route_delete fun hid => .drop hat hid hprov
  | dropDelete hat => exact route_delete fun hid => .dropReplacement (hid ▸ hat)
  | retire hat hterminal => exact route_delete fun hid => .retire hat hid hterminal
  | promote hat hterminal => exact route_store fun hid => .promote hat hid hterminal
  | _ => exact .inl rfl

/-- The ways in which a step changes the replacement of `id`. -/
inductive PendingEdit (s : Network C K) (id : String) : Action C K → Option (String × Entry C) → Prop
  | store {c : C} {e : Entry C} (hat : s.handlers c = .storePending e) (hid : e.request.orderId = id) :
    PendingEdit s id (.handler c) (some (e.request.newOrderId, e))
  | take {k : K} {r : Sent C} (hat : s.readers k = .takePending r) (hid : r.report.orderId = id) :
    PendingEdit s id (.reader k) none
  | clear {k : K} {route : OrderRoute C} {r : Sent C} (hat : s.readers k = .clearPending route r)
    (hid : r.report.orderId = id) : PendingEdit s id (.reader k) none

omit [DecidableEq C] [DecidableEq K] in
private theorem pending_delete {id id₀} (h : id₀ = id → PendingEdit s id a none) :
    (s.pendingReplace.erase id₀)[id]? = s.pendingReplace[id]? ∨
      PendingEdit s id a (s.pendingReplace.erase id₀)[id]? := by
  rw [Maps.getElem?_erase]
  split
  · exact .inr (h ‹_›)
  · exact .inl rfl

theorem Move.pending_at (hmove : Move cfg s a s') (id : String) :
    s'.pendingReplace[id]? = s.pendingReplace[id]? ∨ PendingEdit s id a s'.pendingReplace[id]? := by
  cases hmove with
  | @storePending c _ hat =>
    show (s.pendingReplace.insert _ _)[id]? = _ ∨ PendingEdit s id (.handler c) (s.pendingReplace.insert _ _)[id]?
    rw [Maps.getElem?_insert]
    split
    · exact .inr (.store hat ‹_›)
    · exact .inl rfl
  | takePending hat => exact pending_delete fun hid => .take hat hid
  | clearPending hat => exact pending_delete fun hid => .clear hat hid
  | _ => exact .inl rfl

/-- The ways in which a step changes the requester of `id`. -/
inductive InflightEdit (s : Network C K) (id : String) : Action C K → Option C → Prop
  | store {c : C} {e : Entry C} (hat : s.handlers c = .storeInflight e) (hid : e.request.orderId = id) :
    InflightEdit s id (.handler c) (some e.client)
  | forget {c : C} {e : Entry C} (hat : s.handlers c = .forgetInflight e) (hid : e.request.orderId = id) :
    InflightEdit s id (.handler c) none
  | take {k : K} {route : OrderRoute C} {r : Sent C} (hat : s.readers k = .reply route r)
    (hid : r.report.orderId = id) : InflightEdit s id (.reader k) none

omit [DecidableEq C] [DecidableEq K] in
private theorem inflight_delete {id id₀} (h : id₀ = id → InflightEdit s id a none) :
    (s.inflightRequests.erase id₀)[id]? = s.inflightRequests[id]? ∨
      InflightEdit s id a (s.inflightRequests.erase id₀)[id]? := by
  rw [Maps.getElem?_erase]
  split
  · exact .inr (h ‹_›)
  · exact .inl rfl

theorem Move.inflight_at (hmove : Move cfg s a s') (id : String) :
    s'.inflightRequests[id]? = s.inflightRequests[id]? ∨ InflightEdit s id a s'.inflightRequests[id]? := by
  cases hmove with
  | @storeInflight c _ hat =>
    show (s.inflightRequests.insert _ _)[id]? = _ ∨
      InflightEdit s id (.handler c) (s.inflightRequests.insert _ _)[id]?
    rw [Maps.getElem?_insert]
    split
    · exact .inr (.store hat ‹_›)
    · exact .inl rfl
  | forgetInflight hat => exact inflight_delete fun hid => .forget hat hid
  | replyForeign hat => exact inflight_delete fun hid => .take hat hid
  | _ => exact .inl rfl

end Fxp.Gateway
