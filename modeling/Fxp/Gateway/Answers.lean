import Fxp.Gateway.Stages

/-!
# The answers to cancels and replaces

Every step that meets the condition keeps `Answerable`: requests start with ids that no other outstanding request
names, and the tables hold what each of them needs until its answer has been routed.
-/

namespace Fxp.Gateway

open Machine Network List Function

variable {C K : Type} [DecidableEq C] [DecidableEq K] {cfg : Config K} {a : Action C K}
    {s s' : Network C K} {e : Entry C}
variable {r : Sent C}

structure Starts (s s' : Network C K) (e : Entry C) (a : Action C K) : Prop where
  change : e.request.isChange = true
  serial : e.serial = s.sent e.client
  ok : s.StartOk e.request
  action : ∃ m, a = .message e.client m
  taken : s'.handlers e.client = firstState e

theorem Move.outstanding_from (hmove : Move cfg s a s') (hok : orderly a s) (he : e ∈ s'.outstanding) :
    e ∈ s.outstanding ∨ Starts s s' e a := by
  cases hmove with
  | @start c m trader _ hsession =>
    have he : e ∈ if (bindOwner trader m).isChange then s.outstanding ++ [s.nextEntry c trader m] else
        s.outstanding := he
    split at he
    · rename_i hchange
      rcases mem_append.mp he with he | he
      · exact .inl he
      · obtain rfl := mem_singleton.mp he
        exact .inr ⟨hchange, rfl, hok trader hsession, ⟨m, rfl⟩, update_self ..⟩
    · exact .inl he
  | forgetInflight | unrouted | noPending | keep | dropDelete | retire | promote | finish =>
    exact .inl (mem_filter.mp he).1
  | _ => exact .inl he

/-- The step takes the request out of the outstanding ones: after a failed write, or when its answer has been routed.
-/
inductive Ends (s s' : Network C K) (e : Entry C) : Action C K → Prop
  | fail (hat : s.handlers e.client = .forgetInflight e) (hinflight : s'.inflightRequests[e.request.orderId]? = none)
    (hidle : s'.handlers e.client = .idle) : Ends s s' e (.handler e.client)
  | answer {k : K} {r : Sent C} (hsent : (s.readers k).sent = some r) (hanswer : e.answeredBy r = true)
    (hidle : s'.readers k = .idle) : Ends s s' e (.reader k)

theorem Move.outstanding_kept (hmove : Move cfg s a s') (hown : s.HandlersOwn) (he : e ∈ s.outstanding) :
    e ∈ s'.outstanding ∨ Ends s s' e a := by
  have settle : ∀ {k : K} {r : Sent C}, (s.readers k).sent = some r → s'.readers k = .idle →
      s'.outstanding = s.outstanding.filter (fun e => !e.answeredBy r) → e ∈ s'.outstanding ∨
      Ends s s' e (.reader k) := by
    intro k r hsent hidle hout
    cases hanswer : e.answeredBy r with
    | true => exact .inr (.answer hsent hanswer hidle)
    | false =>
      rw [hout]
      exact .inl (mem_filter.mpr ⟨he, by simp [hanswer]⟩)
  cases hmove with
  | @start c m trader =>
    refine .inl ?_
    show e ∈ if (bindOwner trader m).isChange then s.outstanding ++ [s.nextEntry c trader m] else s.outstanding
    split
    · exact mem_append_left _ he
    · exact he
  | @forgetInflight c e' hat =>
    by_cases heq : e = e'
    · obtain rfl := heq
      obtain rfl := hown c e (by rw [hat]; rfl)
      refine .inr (.fail hat ?_ (update_self ..))
      show (s.inflightRequests.erase _)[e.request.orderId]? = none
      rw [Maps.getElem?_erase, if_pos rfl]
    · exact .inl (mem_filter.mpr ⟨he, by simpa using heq⟩)
  | unrouted hat | noPending hat | keep hat | dropDelete hat | retire hat | promote hat | finish hat =>
    exact settle (by rw [hat]; rfl) (update_self ..) rfl
  | _ => exact .inl he

omit [DecidableEq C] in
theorem Reader.sent_mem_ids {q : Reader C} (h : q.sent = some r) : r.report.orderId ∈ q.ids := by
  cases q <;> cases h <;> simp [Reader.ids, Reader.sent]

/-- A reader is at work on what it was at work on before, or it takes up the first report on its connection. -/
theorem Move.sent_from (hmove : Move cfg s a s') {k} (hsent : (s'.readers k).sent = some r) :
    (s.readers k).sent = some r ∨ a = .read k ∧ (s.down k).head? = some r := by
  rcases hmove.readers_at k with hsame | rfl | rfl
  · exact .inl (hsame ▸ hsent)
  · obtain ⟨_, -, hhead, hload⟩ := hmove.read_sent
    rw [hload] at hsent
    cases hsent
    exact .inr ⟨rfl, hhead⟩
  obtain ⟨_, hr', ⟨hgoes, -⟩ | ⟨hdone, -⟩⟩ := hmove.reader_sent
  · rw [hsent] at hgoes
    cases hgoes
    exact .inl hr'
  · rw [hdone] at hsent
    cases hsent

namespace Answerable

private theorem not_mem_of_forgotten (hmove : Move cfg s (.handler e.client) s')
    (hat : s.handlers e.client = .forgetInflight e) : e ∉ s'.outstanding := by
  have hs' := hmove.handler_eq
  rw [Network.handler, hat] at hs'
  cases hs'
  intro he
  have := (mem_filter.mp he).2
  simp at this

private theorem not_mem_of_ends (hmove : Move cfg s a s') (hends : Ends s s' e a) : e ∉ s'.outstanding := by
  cases hends with
  | fail hat => exact not_mem_of_forgotten hmove hat
  | answer hsent hanswer hidle =>
    obtain ⟨_, hr', ⟨hgoes, -⟩ | ⟨-, hout, -⟩⟩ := hmove.reader_sent
    · rw [hidle] at hgoes
      cases hgoes
    rw [hsent] at hr'
    cases hr'
    rw [hout]
    intro he
    have := (mem_filter.mp he).2
    simp [hanswer] at this

section

variable (h : Answerable s) (hmove : Move cfg s a s')
include h hmove

private theorem move_recent (hok : orderly a s) (he : e ∈ s'.outstanding) : e.serial < s'.sent e.client := by
  rcases hmove.outstanding_from hok he with he | hstart
  · exact lt_of_lt_of_le (h.recent e he) (hmove.sent_le _)
  obtain ⟨_, rfl⟩ := hstart.action
  rw [hstart.serial]
  cases hmove with
  | refuse | start => simp

private theorem move_disjoint (hok : orderly a s) (he : e ∈ s'.outstanding)
    {e'} (he' : e' ∈ s'.outstanding) {id} (hid : id ∈ e.request.names)
    (hid' : id ∈ e'.request.names) : e = e' := by
  rcases hmove.outstanding_from hok he with hold | hstart <;> rcases hmove.outstanding_from hok he' with hold' | hstart'
  · exact h.disjoint e hold e' hold' id hid hid'
  · exact absurd hid (hstart'.ok.1 e hold id hid')
  · exact absurd hid' (hstart.ok.1 e' hold' id hid)
  -- a step takes up one request
  obtain ⟨_, rfl⟩ := hstart.action
  obtain ⟨_, hm'⟩ := hstart'.action
  have hclient : e.client = e'.client := by
    injection hm'
  have hsame : firstState e = firstState e' := by
    rw [← hstart.taken, ← hstart'.taken, hclient]
  unfold firstState at hsame
  split at hsame <;> split at hsame <;> injection hsame

private theorem move_handled {c}
    (hentry : (s'.handlers c).entry = some e) (hchange : e.request.isChange = true) : e ∈ s'.outstanding := by
  rcases hmove.handler_entry hentry with hold | ⟨m, trader, rfl, -, -, rfl⟩
  · rcases hmove.outstanding_kept h.numbered.own (h.handled c e hold hchange) with he | hends
    · exact he
    cases hends with
    | fail _ _ hidle =>
      obtain rfl := h.numbered.own c e hold
      rw [hidle] at hentry
      cases hentry
    | answer hsent hanswer => exact absurd hanswer (h.numbered.no_answer hold hsent)
  · cases hmove with
    | @refuse _ _ _ hidle =>
      have hentry : (s.handlers c).entry = some _ := hentry
      rw [hidle] at hentry
      cases hentry
    | @start _ _ trader' =>
      have hentry : (update s.handlers c (firstState (s.nextEntry c trader' m)) c).entry =
        some (s.nextEntry c trader m) := hentry
      rw [update_self] at hentry
      have heq : s.nextEntry c trader' m = s.nextEntry c trader m := by
        unfold firstState at hentry
        split at hentry <;> exact Option.some.inj hentry
      have hreq : (bindOwner trader' m).isChange = true := by
        have := congrArg Entry.request heq
        exact (congrArg Request.isChange this).trans hchange
      show _ ∈ if (bindOwner trader' m).isChange then s.outstanding ++ [s.nextEntry c trader' m] else s.outstanding
      rw [if_pos hreq, heq]
      exact mem_append_right _ (mem_singleton_self _)

private theorem move_orders (hok : orderly a s) {c}
    (hentry : (s'.handlers c).entry = some e) (hnew : e.request.isChange = false) {e'}
    (he' : e' ∈ s'.outstanding) : e.request.orderId ∉ e'.request.names := by
  rcases hmove.handler_entry hentry with hold | ⟨m, trader, rfl, hsession, -, rfl⟩ <;>
    rcases hmove.outstanding_from hok he' with hold' | hstart'
  · exact h.orders c e hold hnew e' hold'
  · exact (hstart'.ok.2 hstart'.change).2.1 c e hold hnew
  · exact (hok trader hsession).1 e' hold' _ (Request.orderId_mem_names _)
  obtain ⟨_, hm'⟩ := hstart'.action
  have hclient : c = e'.client := by
    injection hm'
  have htaken := hstart'.taken
  rw [← hclient] at htaken
  rw [htaken, firstState] at hentry
  have heq : s.nextEntry c trader m = e' := by
    split at hentry <;> exact (Option.some.inj hentry).symm
  rw [heq, hstart'.change] at hnew
  cases hnew

end

/-- What is known of a request when the reader is done with its answer. -/
theorem settled (h : Answerable s) (he : e ∈ s.outstanding) {k} (hmove : Move cfg s (.reader k) s')
    (hsent : (s.readers k).sent = some r) (hanswer : e.answeredBy r = true) (hidle : s'.readers k = .idle) :
    Got s' e ∧ s.inflightRequests[e.request.orderId]? = none ∧ (requestReject r.report = true → Cleared s' e) := by
  rcases Stage.reader h he hsent hanswer hmove with hgoes | ⟨-, hgot, hinflight, hcleared⟩
  · have := hgoes.sent
    rw [hidle] at this
    cases this
  · exact ⟨hgot, hinflight, hcleared⟩

section

variable (h : Answerable s) (hmove : Move cfg s a s')
include h hmove

private theorem move_inflight {id c}
    (hc : s'.inflightRequests[id]? = some c) : ∃ e ∈ s'.outstanding, e.request.orderId = id := by
  have keep : ∀ e ∈ s.outstanding, e.request.orderId = id → ∃ e ∈ s'.outstanding, e.request.orderId = id := by
    rintro e he rfl
    rcases hmove.outstanding_kept h.numbered.own he with he | hends
    · exact ⟨e, he, rfl⟩
    cases hends with
    | fail _ hinflight =>
      rw [hc] at hinflight
      cases hinflight
    | answer hsent hanswer hidle =>
      have hnone := (h.settled he hmove hsent hanswer hidle).2.1
      rcases hmove.inflight_at e.request.orderId with hsame | hedit
      · rw [hsame, hnone] at hc
        cases hc
      · rw [hc] at hedit
        cases hedit
  rcases hmove.inflight_at id with hsame | hedit
  · obtain ⟨e, he, hid⟩ := h.inflight id c (hsame ▸ hc)
    exact keep e he hid
  rw [hc] at hedit
  cases hedit with
  | @store c₀ e hat hid =>
    have hchange : e.request.isChange = true := h.handler_at hat
    exact keep e (h.handled c₀ e (by rw [hat]; rfl) hchange) hid

private theorem move_pendingTag {id : String} {p : String × Entry C} (hp : s'.pendingReplace[id]? = some p) :
    p.2.request.orderId = id ∧ p.1 = p.2.request.newOrderId ∧ p.2.request.newOrderId ≠ "" := by
  rcases hmove.pending_at id with hsame | hedit
  · exact h.pendingTag id p (hsame ▸ hp)
  rw [hp] at hedit
  cases hedit with
  | @store _ e hat hid =>
    have hne : e.request.newOrderId ≠ "" := h.handler_at hat
    exact ⟨hid, rfl, hne⟩

private theorem move_pendingOwn (hok : orderly a s) (he : e ∈ s'.outstanding)
    {p} (hp : s'.pendingReplace[e.request.orderId]? = some p) : p.2 = e := by
  rcases hmove.outstanding_from hok he with hold | hstart
  · rcases hmove.pending_at e.request.orderId with hsame | hedit
    · exact h.pendingOwn e hold p (hsame ▸ hp)
    rw [hp] at hedit
    cases hedit with
    | @store c e' hat hid =>
      have hne : e'.request.newOrderId ≠ "" := h.handler_at hat
      have he' := h.handled c e' (by rw [hat]; rfl) (Request.isChange_of_newOrderId hne)
      exact h.disjoint e' he' e hold _ (Request.orderId_mem_names _) (hid ▸ Request.orderId_mem_names _)
  · obtain ⟨_, rfl⟩ := hstart.action
    rcases hmove.pending_at e.request.orderId with hsame | hedit
    · rw [hsame, (hstart.ok.2 hstart.change).1] at hp
      cases hp
    · cases hedit

private theorem move_terminals (hok : orderly a s) {k : K}
    (hsent : (s'.readers k).sent = some r) (hterminal : terminal r.report = true) (he : e ∈ s'.outstanding)
    (hid : e.request.orderId = r.report.orderId) : e.answeredBy r = true := by
  rcases hmove.sent_from hsent with hold | ⟨rfl, hhead⟩ <;> rcases hmove.outstanding_from hok he with heold | hstart
  · exact h.terminals k r hold hterminal e heold hid
  · refine absurd ?_ ((hstart.ok.2 hstart.change).2.2 k _ (Reader.sent_mem_ids hold))
    rw [← hid]
    exact Request.orderId_mem_names _
  · exact (hok r hhead hterminal).1 e heold hid
  · obtain ⟨_, hm⟩ := hstart.action
    cases hm

private theorem move_single (hok : orderly a s) {k k' r'}
    (hsent : (s'.readers k).sent = some r) (hsent' : (s'.readers k').sent = some r')
    (hterminal : terminal r.report = true) (hterminal' : terminal r'.report = true)
    (hid : r.report.orderId = r'.report.orderId) : k = k' := by
  rcases hmove.sent_from hsent with hold | ⟨rfl, hhead⟩ <;> rcases hmove.sent_from hsent' with hold' | ⟨ha, hhead'⟩
  · exact h.single k k' r r' hold hold' hterminal hterminal' hid
  · subst ha
    exact absurd hid ((hok r' hhead' hterminal').2.1 k r hold hterminal)
  · exact absurd hid.symm ((hok r hhead hterminal).2.1 k' r' hold' hterminal')
  · injection ha

private theorem move_rejects (hok : orderly a s) {k}
    (hsent : (s'.readers k).sent = some r) (hreject : requestReject r.report = true) :
    ∃ e ∈ s'.outstanding, e.answeredBy r = true := by
  have hterminal := terminal_of_isRequestReply (isRequestReply_of_requestReject hreject)
  rcases hmove.sent_from hsent with hold | ⟨rfl, hhead⟩
  · obtain ⟨e, he, hanswer⟩ := h.rejects k r hold hreject
    rcases hmove.outstanding_kept h.numbered.own he with he' | hends
    · exact ⟨e, he', hanswer⟩
    cases hends with
    | fail hat =>
      have hentry : (s.handlers e.client).entry = some e := by
        rw [hat]
        rfl
      exact absurd hanswer (h.numbered.no_answer hentry hold)
    | @answer k' r' hsent' hanswer' hidle =>
      -- only the reader of this report could be done with an answer to the request
      have hid := (Entry.answeredBy_iff.mp hanswer).2.2.1
      have hid' := (Entry.answeredBy_iff.mp hanswer').2.2.1
      obtain rfl := h.single k k' r r' hold hsent' hterminal (Entry.terminal_of_answeredBy hanswer')
        (hid.trans hid'.symm)
      rw [hidle] at hsent
      cases hsent
  · obtain ⟨e, he, hanswer⟩ := (hok r hhead hterminal).2.2 hreject
    refine ⟨e, ?_, hanswer⟩
    cases hmove with
    | read => exact he

private theorem move_drops (hok : orderly a s) {k newID}
    (hat : s'.readers k = .dropLoad newID r ∨ s'.readers k = .dropDelete newID r) (he : e ∈ s'.outstanding)
    (hname : newID ∈ e.request.names) : e.answeredBy r = true := by
  -- nothing changes for a reader that was there before
  have old : s.readers k = .dropLoad newID r ∨ s.readers k = .dropDelete newID r → e.answeredBy r = true := by
    intro hold
    rcases hmove.outstanding_from hok he with heold | hstart
    · exact h.drops k newID r hold e heold hname
    · refine absurd hname ((hstart.ok.2 hstart.change).2.2 k newID ?_)
      rcases hold with hold | hold <;> rw [hold] <;> simp [Reader.ids]
  rcases hmove.readers_at k with hsame | rfl | rfl
  · exact old (hsame ▸ hat)
  · obtain ⟨_, -, -, hload⟩ := hmove.read_sent
    rw [hload] at hat
    rcases hat with hat | hat <;> cases hat
  have hsent : (s'.readers k).sent = some r := by
    rcases hat with hat | hat <;> rw [hat] <;> rfl
  cases hmove with
  | @takePending _ r' newID' e' hat' hpending =>
    have hq : update s.readers k (.dropLoad newID' r') k = .dropLoad newID' r' := update_self ..
    have hat : update s.readers k (.dropLoad newID' r') k = .dropLoad newID r ∨
      update s.readers k (.dropLoad newID' r') k = .dropDelete newID r := hat
    rw [hq] at hat
    rcases hat with hat | hat <;> cases hat
    have hreject : requestReject r.report = true := h.reader_at hat'
    obtain ⟨e₁, he₁, hanswer₁⟩ := h.rejects k r (by rw [hat']; rfl) hreject
    have hid₁ := (Entry.answeredBy_iff.mp hanswer₁).2.2.1
    rw [hid₁] at hpending
    obtain rfl : e' = e₁ := h.pendingOwn e₁ he₁ _ hpending
    obtain ⟨-, hnew, hne⟩ := h.pendingTag _ _ hpending
    have hnew : newID = e'.request.newOrderId := hnew
    rw [h.disjoint e he e' he₁ newID hname (hnew ▸ Request.newOrderId_mem_names hne)]
    exact hanswer₁
  | @dropLoad _ r' newID' _ hat' =>
    have hq : update s.readers k (.dropDelete newID' r') k = .dropDelete newID' r' := update_self ..
    have hat : update s.readers k (.dropDelete newID' r') k = .dropLoad newID r ∨
      update s.readers k (.dropDelete newID' r') k = .dropDelete newID r := hat
    rw [hq] at hat
    rcases hat with hat | hat <;> cases hat
    exact old (.inl hat')
  | unrouted | noPending | keep | dropDelete | retire | promote | finish | replyOwn | replyForeign | deliver | dropRoute
  | keepRoute | clearPending =>
    rcases hat with hat | hat <;> simp [settle, setReader, deleteRoute, storeRoute, deleteInflight,
      deletePending] at hat
  | load =>
    rcases hat with hat | hat <;> simp [setReader, afterLoad] at hat <;> split at hat <;> cases hat
  | delivered =>
    rcases hat with hat | hat <;> simp [setReader, afterDelivery] at hat <;> split at hat <;>
      first | cases hat | (split at hat <;> cases hat)

/-- After a failed write, only the handler of the request is at work on it. -/
theorem acts_forgetting (hacts : Acts s e a)
    (hat : s.handlers e.client = .forget e ∨ s.handlers e.client = .forgetInflight e) : a = .handler e.client := by
  cases hacts with
  | handler => rfl
  | write =>
    cases hmove with
    | write hat' => rcases hat with hat | hat <;> cases hat'.symm.trans hat
  | fail =>
    cases hmove with
    | fail hat' => rcases hat with hat | hat <;> cases hat'.symm.trans hat
  | reader hsent hanswer =>
    refine absurd hanswer (h.numbered.no_answer (c := e.client) ?_ hsent)
    rcases hat with hat | hat <;> rw [hat] <;> rfl

/-- A request that stands after a step stood before it. -/
theorem standing (he : e ∈ s.outstanding) (he' : e ∈ s'.outstanding) (hstanding : Standing s' e) : Standing s e := by
  have hends : ¬ Ends s s' e a := fun hends => not_mem_of_ends hmove hends he'
  refine ⟨fun hat => ?_, fun hat => ?_, fun k r hsent hanswer => ?_⟩
  · by_cases hacts : Acts s e a
    · obtain rfl := h.acts_forgetting hmove hacts (.inl hat)
      have hs' := hmove.handler_eq
      rw [Network.handler, hat] at hs'
      cases hs'
      exact hstanding.2.1 (update_self ..)
    · exact hstanding.1 ((handler_of_not_acts hmove hacts (by rw [hat]; rfl)).trans hat)
  · by_cases hacts : Acts s e a
    · obtain rfl := h.acts_forgetting hmove hacts (.inr hat)
      exact not_mem_of_forgotten hmove hat he'
    · exact hstanding.2.1 ((handler_of_not_acts hmove hacts (by rw [hat]; rfl)).trans hat)
  · rcases hmove.readers_at k with hsame | rfl | rfl
    · rw [← hsame] at hsent ⊢
      exact hstanding.2.2 k r hsent hanswer
    · obtain ⟨_, hidle, -⟩ := hmove.read_sent
      rw [hidle] at hsent
      cases hsent
    rcases Stage.at_reader h he hsent hanswer with ⟨hat, -⟩ | hat
    · exact hat
    -- past the lookup, the reader does not come back to it
    rcases Stage.reader h he hsent hanswer hmove with hgoes | ⟨hidle, -⟩
    · have hload := hstanding.2.2 k r hgoes.sent hanswer
      have hat' := hgoes.at_answer
      rw [hload] at hat'
      cases hat'
    · exact absurd (Ends.answer hsent hanswer hidle) hends

/-- The route of an order stays where it leads while a request about it stands. -/
theorem route_kept (he : e ∈ s.outstanding) (he' : e ∈ s'.outstanding)
    (hstanding' : Standing s' e) {cur} (hcur : s.orderClientMap[e.request.orderId]? = some cur) :
    ∃ cur', s'.orderClientMap[e.request.orderId]? = some cur' ∧ cur'.conn = cur.conn := by
  have hstanding := h.standing hmove he he' hstanding'
  by_cases hacts : Acts s e a
  · rcases hmove.route_at e.request.orderId with hsame | hedit
    · exact ⟨cur, hsame.trans hcur, rfl⟩
    -- the handler of the request does not change a route that is there, and the reader has not found it yet
    exfalso
    generalize s'.orderClientMap[e.request.orderId]? = new at hedit
    cases hedit with
    | replacement _ _ hnone | target _ _ _ hnone =>
      rw [hcur] at hnone
      cases hnone
    | @order c e₀ hat hid hnew =>
      exact h.orders c e₀ (by rw [hat]; rfl) hnew e he (hid ▸ Request.orderId_mem_names _)
    | @forget _ _ hat =>
      cases hacts with
      | handler hentry =>
        rw [hat] at hentry
        cases hentry
        exact hstanding.1 hat
    | @drop k route r hat | @dropReplacement k r hat | @retire k route r hat | @promote k route r hat =>
      cases hacts with
      | reader hsent hanswer =>
        have hload := hstanding.2.2 k _ hsent hanswer
        rw [hat] at hload
        cases hload
  · rcases (h.undisturbed he hmove hacts).route with hsame | ⟨k, route, r, hat, hid, hterminal, hnew⟩
    · exact ⟨cur, hsame.trans hcur, rfl⟩
    obtain ⟨_, hcur', hconn⟩ := h.copies k route r (by rw [hat]; rfl) (by rw [hat]; rfl) hterminal e he hid.symm
      hstanding
    rw [hcur] at hcur'
    cases hcur'
    exact ⟨_, hnew, hconn.symm⟩

private theorem move_copies (hok : orderly a s) {k : K} {route : OrderRoute C}
    (hcopy : (s'.readers k).copy = some route) (hsent : (s'.readers k).sent = some r)
    (hterminal : terminal r.report = false) (he' : e ∈ s'.outstanding) (hid : e.request.orderId = r.report.orderId)
    (hstanding' : Standing s' e) :
    ∃ cur, s'.orderClientMap[e.request.orderId]? = some cur ∧ cur.conn = route.conn := by
  rcases hmove.outstanding_from hok he' with he | hstart
  · -- it is enough that the copy leads where the route led before the step
    have enough : (∃ cur, s.orderClientMap[e.request.orderId]? = some cur ∧ cur.conn = route.conn) →
        ∃ cur, s'.orderClientMap[e.request.orderId]? = some cur ∧ cur.conn = route.conn := by
      rintro ⟨_, hcur, hconn⟩
      obtain ⟨cur', hcur', hconn'⟩ := h.route_kept hmove he he' hstanding' hcur
      exact ⟨cur', hcur', hconn'.trans hconn⟩
    have old : (s.readers k).copy = some route → (s.readers k).sent = some r →
        ∃ cur, s.orderClientMap[e.request.orderId]? = some cur ∧ cur.conn = route.conn := fun hcopy hsent =>
      h.copies k route r hcopy hsent hterminal e he hid (h.standing hmove he he' hstanding')
    refine enough ?_
    rcases hmove.readers_at k with hsame | rfl | rfl
    · rw [hsame] at hcopy hsent
      exact old hcopy hsent
    · obtain ⟨_, -, -, hload⟩ := hmove.read_sent
      rw [hload] at hcopy
      cases hcopy
    cases hmove with
    | @load _ r' route' _ hroute =>
      have hq : (s.setReader k (afterLoad route' r')).readers k = afterLoad route' r' := update_self ..
      rw [hq] at hcopy hsent
      unfold afterLoad at hcopy hsent
      split at hcopy
      · cases hcopy
      cases hcopy
      split at hsent
      · rename_i hreply
        cases hsent
        rw [terminal_of_isRequestReply hreply] at hterminal
        cases hterminal
      · cases hsent
        exact ⟨route, hid ▸ hroute, rfl⟩
    | @deliver _ r' route' _ rest hat =>
      have hq : update s.readers k (.deliver route' rest r') k = .deliver route' rest r' :=
        update_self ..
      have hcopy : (update s.readers k (.deliver route' rest r') k).copy = some route := hcopy
      have hsent : (update s.readers k (.deliver route' rest r') k).sent = some r := hsent
      rw [hq] at hcopy hsent
      exact old (by rw [hat]; exact hcopy) (by rw [hat]; exact hsent)
    | @delivered _ r' route' hat =>
      have hq : (s.setReader k (afterDelivery route' r')).readers k = afterDelivery route' r' :=
        update_self ..
      rw [hq] at hcopy hsent
      unfold afterDelivery at hcopy hsent
      split at hcopy
      · cases hcopy
      split at hcopy
      · cases hcopy
      rename_i hreject hreplaced
      rw [if_neg hreject, if_neg hreplaced] at hsent
      exact old (by rw [hat]; exact hcopy) (by rw [hat]; exact hsent)
    | @clearPending _ r' route' hat =>
      -- a replaced order is done with
      have hreplaced : r'.report.orderStatus = .replaced := h.reader_at hat
      have hq : update s.readers k (.finish route' r') k = .finish route' r' := update_self ..
      have hsent : (update s.readers k (.finish route' r') k).sent = some r := hsent
      rw [hq] at hsent
      cases hsent
      simp [terminal, hreplaced] at hterminal
    | @replyOwn _ r' route' hat | @replyForeign _ r' route' _ hat =>
      have hreply : isRequestReply r'.report = true := h.reader_at hat
      have hsent : (update s.readers k _ k).sent = some r := hsent
      rw [update_self] at hsent
      cases hsent
      rw [terminal_of_isRequestReply hreply] at hterminal
      cases hterminal
    | unrouted | noPending | keep | dropDelete | retire | promote | finish | dropRoute | keepRoute | takePending
    | dropLoad =>
      have hcopy : (update s.readers k _ k).copy = some route := hcopy
      rw [update_self] at hcopy
      cases hcopy
  · obtain ⟨_, rfl⟩ := hstart.action
    rcases hmove.readers_at k with hsame | hread | hread
    · rw [hsame] at hsent
      refine absurd ?_ ((hstart.ok.2 hstart.change).2.2 k _ (Reader.sent_mem_ids hsent))
      rw [← hid]
      exact Request.orderId_mem_names _
    · cases hread
    · cases hread

private theorem stage_of_starts (hstart : Starts s s' e a) : Stage s' e := by
  obtain ⟨_, rfl⟩ := hstart.action
  have hinflight : s'.inflightRequests[e.request.orderId]? = none := by
    rcases hmove.inflight_at e.request.orderId with hsame | hedit
    · rw [hsame]
      by_contra hne
      obtain ⟨c, hc⟩ := Option.ne_none_iff_exists'.mp hne
      obtain ⟨e', he', hid⟩ := h.inflight _ c hc
      exact hstart.ok.1 e' he' _ (Request.orderId_mem_names _) (hid ▸ Request.orderId_mem_names _)
    · cases hedit
  have hpending : s'.pendingReplace[e.request.orderId]? = none := by
    rcases hmove.pending_at e.request.orderId with hsame | hedit
    · rw [hsame]
      exact (hstart.ok.2 hstart.change).1
    · cases hedit
  have htags : ∀ id, ¬ Tagged s' e id := by
    intro id htag
    rcases hmove.tagged htag with hold | ⟨_, hc, -⟩
    · have := h.tagRecent e id hold
      rw [hstart.serial] at this
      exact lt_irrefl _ this
    · cases hc
  refine .registering ?_ hinflight
  rw [hstart.taken, firstState]
  split
  · exact .begun hpending htags
  · exact .registering fun id htag => absurd htag (htags id)

private theorem move_stages (hok : orderly a s) (he' : e ∈ s'.outstanding) : Stage s' e := by
  rcases hmove.outstanding_from hok he' with he | hstart
  · have hends : ¬ Ends s s' e a := fun hends => not_mem_of_ends hmove hends he'
    by_cases hacts : Acts s e a
    · cases hacts with
      | handler hentry =>
        exact (Stage.handler h he hmove hentry).resolve_right fun hat => not_mem_of_forgotten hmove hat he'
      | write hentry => exact Stage.write h he hmove hentry
      | fail hentry => exact Stage.fail hmove hentry
      | reader hsent hanswer =>
        rcases Stage.reader h he hsent hanswer hmove with hgoes | ⟨hidle, -⟩
        · exact .answering hgoes.sent hanswer hgoes.at_answer
        · exact absurd (Ends.answer hsent hanswer hidle) hends
    · exact Stage.others h he hmove hacts
  · exact h.stage_of_starts hmove hstart

private theorem move_away (haway : Away s' e) (hchange : e.request.isChange = true) : e ∈ s'.outstanding ∨
    Got s' e := by
  have keep : e ∈ s.outstanding → Away s e ∨ (∃ c k, a = .write c k) → e ∈ s'.outstanding ∨ Got s' e := by
    intro he hwhere
    rcases hmove.outstanding_kept h.numbered.own he with he' | hends
    · exact .inl he'
    cases hends with
    | fail hat =>
      rcases hwhere with haway | ⟨c, _, ha⟩
      · exact absurd (by rw [hat]; rfl) (h.numbered.not_in_handler haway (c := e.client))
      · cases ha
    | answer hsent hanswer hidle => exact .inr (h.settled he hmove hsent hanswer hidle).1
  rcases hmove.away haway with hold | ⟨c, k, _, ha, hat⟩
  · rcases h.away e hold hchange with he | hgot
    · exact keep he (.inl hold)
    · exact .inr (hmove.got hgot)
  · exact keep (h.handled c e (by rw [hat]; rfl) hchange) (.inr ⟨c, k, ha⟩)

end

private theorem refused_mono (hmove : Move cfg s a s') (he : e ∈ s.refused) : e ∈ s'.refused := by
  cases hmove with
  | unrouted | noPending | keep | dropDelete | retire | promote | finish => exact mem_append_left _ he
  | _ => exact he

section

variable (h : Answerable s) (hmove : Move cfg s a s')
include h hmove

private theorem move_emitted (hok : orderly a s) {p} (hp : p ∈ s'.emitted) : OnItsWay s' p.1 p.2 ∨
      ∀ e, e.answeredBy p.2 = true → e ∉ s'.outstanding ∧ (requestReject p.2.report = true → e ∈ s'.refused) := by
  obtain ⟨_, hemitted, hnew, -⟩ := hmove.emitted
  rw [hemitted] at hp
  rcases mem_append.mp hp with hp | hp
  · rcases h.emitted p hp with hway | hdone
    · rcases hmove.on_way hway with hway | ⟨rfl, hsent, hidle⟩
      · exact .inl hway
      refine .inr fun e hanswer => ⟨not_mem_of_ends hmove (.answer hsent hanswer hidle), fun hreject => ?_⟩
      obtain ⟨_, hr, ⟨hgoes, -⟩ | ⟨-, -, hrefused⟩⟩ := hmove.reader_sent
      · rw [hidle] at hgoes
        cases hgoes
      rw [hsent] at hr
      cases hr
      rw [hrefused, if_pos hreject, (Entry.answeredBy_iff.mp hanswer).2.1]
      exact mem_append_right _ (mem_filter.mpr ⟨mem_singleton_self _, hanswer⟩)
    · refine .inr fun e hanswer => ⟨fun he' => ?_, fun hreject => refused_mono hmove ((hdone e hanswer).2 hreject)⟩
      rcases hmove.outstanding_from hok he' with he | hstart
      · exact (hdone e hanswer).1 he
      have := h.numbered.away e (.source hp (Entry.answeredBy_iff.mp hanswer).2.1)
      rw [hstart.serial] at this
      exact lt_irrefl _ this
  · exact .inl (hnew p hp)

private theorem move_tagRecent {id} (htag : Tagged s' e id) : e.serial < s'.sent e.client := by
  refine lt_of_lt_of_le ?_ (hmove.sent_le _)
  rcases hmove.tagged htag with hold | ⟨c, -, hentry⟩
  · exact h.tagRecent e id hold
  · obtain rfl := h.numbered.own c e hentry
    exact h.numbered.entry _ e hentry

private theorem move_cleared (he : e ∈ s'.refused) : (∃ p ∈ s'.emitted, p.2.source = some e) ∧
      (∀ id, ¬ Tagged s' e id) ∧ ∀ (id : String) p, s'.pendingReplace[id]? = some p → p.2 ≠ e := by
  have old : e ∈ s.refused → (∃ p ∈ s'.emitted, p.2.source = some e) ∧ (∀ id, ¬ Tagged s' e id) ∧
      ∀ (id : String) p, s'.pendingReplace[id]? = some p → p.2 ≠ e := by
    intro hold
    obtain ⟨⟨p, hp, hsource⟩, htags, hpending⟩ := h.cleared e hold
    have hhandler : ∀ c, (s.handlers c).entry ≠ some e := fun c => h.numbered.not_in_handler (.source hp hsource)
    refine ⟨⟨p, hmove.emitted_mono hp, hsource⟩, fun id htag => ?_, fun id q hq => ?_⟩
    · rcases hmove.tagged htag with htag | ⟨c, -, hentry⟩
      · exact htags id htag
      · exact hhandler c hentry
    rcases hmove.pending_at id with hsame | hedit
    · exact hpending id q (hsame ▸ hq)
    rw [hq] at hedit
    cases hedit with
    | store hat =>
      rintro rfl
      exact hhandler _ (by rw [hat]; rfl)
  have settle : ∀ {k : K} {r : Sent C}, Move cfg s (.reader k) s' → (s.readers k).sent = some r →
      s'.readers k = .idle →
      e ∈ s.refused ++ (if requestReject r.report then r.source.toList.filter (·.answeredBy r) else []) →
      (∃ p ∈ s'.emitted, p.2.source = some e) ∧ (∀ id, ¬ Tagged s' e id) ∧
        ∀ (id : String) p, s'.pendingReplace[id]? = some p → p.2 ≠ e := by
    intro k r hmove hsent hidle he
    rcases mem_append.mp he with he | he
    · exact old he
    split at he
    · rename_i hreject
      obtain ⟨_, hanswer⟩ := mem_filter.mp he
      obtain ⟨e₁, he₁, hanswer₁⟩ := h.rejects k r hsent hreject
      have hsrc := (Entry.answeredBy_iff.mp hanswer).2.1
      obtain rfl : e₁ = e := by
        rw [(Entry.answeredBy_iff.mp hanswer₁).2.1] at hsrc
        exact Option.some.inj hsrc
      obtain ⟨htags, hnone⟩ := (h.settled he₁ hmove hsent hanswer hidle).2.2 hreject
      refine ⟨⟨(k, r), hmove.emitted_mono (h.numbered.onWay k r (.reader hsent)), hsrc⟩, htags, ?_⟩
      rintro _ _ hp rfl
      obtain ⟨hid, -⟩ := h.move_pendingTag hmove hp
      rw [← hid, hnone] at hp
      cases hp
    · cases he
  have hmove' := hmove
  cases hmove with
  | unrouted hat | noPending hat | keep hat | dropDelete hat | retire hat | promote hat | finish hat =>
    exact settle hmove' (by rw [hat]; rfl) (update_self ..) he
  | _ => exact old he

end

private theorem move (h : Answerable s) (hmove : Move cfg s a s') (hok : orderly a s) : Answerable s' where
  numbered := h.numbered.move hmove
  readers := hmove.reader_proper h.readers
  handlers := hmove.handler_proper h.handlers
  change e he := by
    rcases hmove.outstanding_from hok he with he | hstart
    · exact h.change e he
    · exact hstart.change
  recent _ he := h.move_recent hmove hok he
  disjoint _ he _ he' _ hid hid' := h.move_disjoint hmove hok he he' hid hid'
  handled _ _ hentry hchange := h.move_handled hmove hentry hchange
  orders _ _ hentry hnew _ he' := h.move_orders hmove hok hentry hnew he'
  inflight _ _ hc := h.move_inflight hmove hc
  pendingTag _ _ hp := h.move_pendingTag hmove hp
  pendingOwn _ he _ hp := h.move_pendingOwn hmove hok he hp
  terminals _ _ hsent hterminal _ he hid := h.move_terminals hmove hok hsent hterminal he hid
  single _ _ _ _ hsent hsent' hterminal hterminal' hid := h.move_single hmove hok hsent hsent' hterminal hterminal' hid
  rejects _ _ hsent hreject := h.move_rejects hmove hok hsent hreject
  drops _ _ _ hat _ he hname := h.move_drops hmove hok hat he hname
  copies _ _ _ hcopy hsent hterminal _ he hid hstanding :=
    h.move_copies hmove hok hcopy hsent hterminal he hid hstanding
  stages _ he := h.move_stages hmove hok he
  away _ haway hchange := h.move_away hmove haway hchange
  emitted _ hp := h.move_emitted hmove hok hp
  tagRecent _ _ htag := h.move_tagRecent hmove htag
  cleared _ he := h.move_cleared hmove he

omit [DecidableEq K] in
private theorem init : Answerable ({} : Network C K) where
  numbered := Numbered.init
  readers k := trivial
  handlers c := trivial
  change e he := by cases he
  recent e he := by cases he
  disjoint e he := by cases he
  handled c e hentry := by cases hentry
  orders c e hentry := by cases hentry
  inflight id c hc := by simp at hc
  pendingTag id p hp := by simp at hp
  pendingOwn e he := by cases he
  terminals k r hsent := by cases hsent
  single k k' r r' hsent := by cases hsent
  rejects k r hsent := by cases hsent
  drops k newID r hat := by rcases hat with hat | hat <;> cases hat
  copies k route r hcopy := by cases hcopy
  stages e he := by cases he
  away e haway := by
    cases haway with
    | up h | hand h => cases h
    | inbox h => simp [inbox] at h
    | source hp => cases hp
  emitted p hp := by cases hp
  tagRecent e id htag := by
    obtain ⟨_, hroute, -⟩ := htag
    simp at hroute
  cleared e he := by cases he

end Answerable

/-- A core that admits every symbol, behind two connections. -/
def Config.pair : Config (Fin 2) :=
  { engine := fun symbol now => Engine.new { Settings.sample none with symbol := symbol, now := now } }

def Request.cancelSample (orderId : String) : Request :=
  .orderCancel { symbol := "S", orderId, sender := "", clientCancelId := "c" }

/-- Client 0 sends an order, and cancels one that the core does not know. -/
def cancelUnknown : List (Action (Fin 2) (Fin 2)) :=
  [.logon 0 "t", .message 0 (.sample "A"), .handler 0, .write 0 0, .coreRead 0, .coreRoute 0 (.ofSeconds 1),
    .receive "S" (.at 1), .message 0 (.cancelSample "B"), .handler 0, .write 0 1, .coreRead 1,
    .coreRoute 1 (.ofSeconds 2),
    .emit "S", .receive "S" (.at 2), .emit "S", .read 1, .reader 1, .reader 1, .reader 1, .reader 1, .reader 1,
    .reader 1]

instance (s : Network (Fin 2) (Fin 2)) (m : Request) : Decidable (s.StartOk m) :=
  inferInstanceAs (Decidable (_ ∧ (_ → _ ∧ (∀ c, ∀ e ∈ (s.handlers c).entry, _) ∧ ∀ k, ∀ id ∈ (s.readers k).ids, _)))

instance (s : Network (Fin 2) (Fin 2)) (r : Sent (Fin 2)) : Decidable (s.TakeOk r) :=
  inferInstanceAs
    (Decidable (_ ∧ (∀ k, ∀ r' ∈ (s.readers k).sent, _) ∧ (_ → ∃ e ∈ s.outstanding, e.answeredBy r = true)))

instance : ∀ (a : Action (Fin 2) (Fin 2)) (s : Network (Fin 2) (Fin 2)), Decidable (orderly a s)
  | .message c m, s => inferInstanceAs (Decidable (∀ trader ∈ s.sessions c, s.StartOk (bindOwner trader m)))
  | .read k, s => inferInstanceAs (Decidable (∀ r ∈ (s.down k).head?, terminal r.report = true → s.TakeOk r))
  | .logon .., _ | .close .., _ | .handler .., _ | .write .., _ | .fail .., _ | .coreRead .., _ | .coreRoute .., _
  | .receive .., _ | .other .., _ | .emit .., _ | .reader .., _ => .isTrue trivial

/-- Nothing is on its way on connection `k`. -/
def quietOn (k : K) (s : Network C K) : Bool :=
  s.tasks.toList.all (·.2.emitting.isEmpty) && (s.down k).isEmpty && (s.readers k).sent.isNone

omit [DecidableEq C] [DecidableEq K] in
private theorem not_onItsWay_of_quietOn {k} (h : quietOn k s = true) : ¬ OnItsWay s k r := by
  simp only [quietOn, Bool.and_eq_true, List.all_eq_true, List.isEmpty_iff, Option.isNone_iff_eq_none] at h
  obtain ⟨⟨htasks, hdown⟩, hreader⟩ := h
  intro hway
  cases hway with
  | @task symbol task htask hmem =>
    rw [htasks (symbol, task) (Std.ExtTreeMap.mem_toList_iff_getElem?_eq_some.mpr htask)] at hmem
    cases hmem
  | down hmem =>
    rw [hdown] at hmem
    cases hmem
  | reader hsent =>
    rw [hreader] at hsent
    cases hsent

/-- Client 0 cancels its order, but it is filled by an order of client 1 before the core gets the cancel. -/
def cancelFilled : List (Action Nat Nat) :=
  [.logon 0 "t", .logon 1 "u", .message 0 (.sample "A"), .handler 0, .write 0 0] ++ takeUp 0 1 ++ answerOnce ++
    [.message 0 (.cancelSample "A"), .handler 0, .handler 0,
      .message 1 (.newOrder { NewOrderSingle.sample "B" "" .sell 100 10 with symbol := "S" }), .handler 1,
      .write 1 1] ++
    takeUp 1 2 ++ answerOnce ++ answerOnce ++ answerOnce ++ [.write 0 0] ++ takeUp 0 3 ++ answerOnce ++
    [.read 0, .reader 0, .reader 0, .reader 0, .reader 0, .read 0, .reader 0, .reader 0, .reader 0, .reader 0,
      .read 0, .reader 0]

end Fxp.Gateway
