import Fxp.Fix.Session
import Mathlib

/-!
# What a session does with a message

Everything `Session.dispatch` does is a chain of a few steps (`Atom`): the expected number moves forward, a message is
handled with its number, a message waits, a ResendRequest is sent, the store is reset.
-/

namespace Fxp.Fix

open Option

def maxInt : Int := 2 ^ 63 - 1

def Message.sessionKey (msg : Message) : SessionKey := ⟨msg.get 8, msg.get 56, msg.get 49⟩

namespace Session

variable {clean waits : Prop} {env : Env} {s s' : Session} {msg : Message} {seq : Int}

section

variable (f : Registry → SessionKey → Registry) (s : Session)

@[simp] theorem withStore_state : (s.withStore f).state = s.state := by unfold withStore; split <;> rfl
@[simp] theorem withStore_closed : (s.withStore f).closed = s.closed := by unfold withStore; split <;> rfl
@[simp] theorem withStore_inSeqNum : (s.withStore f).inSeqNum = s.inSeqNum := by unfold withStore; split <;> rfl
@[simp] theorem withStore_pending : (s.withStore f).pending = s.pending := by unfold withStore; split <;> rfl
@[simp] theorem withStore_resendTo : (s.withStore f).resendTo = s.resendTo := by unfold withStore; split <;> rfl
@[simp] theorem withStore_regKey : (s.withStore f).regKey = s.regKey := by unfold withStore; split <;> rfl
@[simp] theorem withStore_out : (s.withStore f).out = s.out := by unfold withStore; split <;> rfl

@[simp] theorem close_registry : s.close.registry = s.registry := by unfold close; split <;> rfl
@[simp] theorem close_inSeqNum : s.close.inSeqNum = s.inSeqNum := by unfold close; split <;> rfl
@[simp] theorem close_pending : s.close.pending = s.pending := by unfold close; split <;> rfl
@[simp] theorem close_resendTo : s.close.resendTo = s.resendTo := by unfold close; split <;> rfl
@[simp] theorem close_regKey : s.close.regKey = s.regKey := by unfold close; split <;> rfl
@[simp] theorem close_out : s.close.out = s.out := by unfold close; split <;> rfl
@[simp] theorem close_closed : s.close.closed = true := by unfold close; split <;> simp_all

private theorem close_state_open (h : s.close.state.isOpen) : s.state.isOpen := by
  unfold close at h
  split at h
  · exact h
  · cases h

end

/-- What most steps keep. -/
structure Kept (s s' : Session) : Prop where
  regKey : s'.regKey = s.regKey
  active : s'.registry.active = s.registry.active
  opened : s'.state.isOpen → s.state.isOpen
  pending : ∀ (seq : Int) (msg : Message), s'.pending[seq]? = some msg → s.pending[seq]? = some msg
  size : s'.pending.size ≤ s.pending.size
  resendTo : s.resendTo = 0 → s'.resendTo = 0

theorem Kept.refl (s : Session) : Kept s s := ⟨rfl, rfl, id, fun _ _ => id, Nat.le_refl _, id⟩

theorem Kept.trans {a b c} (h : Kept a b) (h' : Kept b c) : Kept a c where
  regKey := h'.regKey.trans h.regKey
  active := h'.active.trans h.active
  opened := fun ho => h.opened (h'.opened ho)
  pending := fun seq msg hp => h.pending seq msg (h'.pending seq msg hp)
  size := Nat.le_trans h'.size h.size
  resendTo := fun h0 => h'.resendTo (h.resendTo h0)

private theorem withStore_kept (f : Registry → SessionKey → Registry) (hf : ∀ r k, (f r k).active = r.active)
    (s : Session) : Kept s (s.withStore f) := by
  refine ⟨by simp, ?_, by simp, by simp, by simp, by simp⟩
  unfold withStore
  split
  · rfl
  · exact hf _ _

private theorem record_kept (e : Event) (s : Session) : Kept s (s.record e) :=
  withStore_kept (fun r k => r.record k e) (fun _ _ => rfl) s

private theorem setNextIn_kept (n : Int) (s : Session) : Kept s (s.setNextIn n) :=
  withStore_kept (fun r k => r.setNextIn k n) (fun _ _ => rfl) s

private theorem save_kept (s : Session) : Kept s s.save :=
  withStore_kept (fun r k => r.record k (.persisted (r.nextIn k))) (fun _ _ => rfl) s

private theorem close_kept (s : Session) : Kept s s.close :=
  ⟨by simp, by simp, s.close_state_open, by simp, by simp, by simp⟩

private theorem send_kept (env : Env) (o : Outbound) (s : Session) : Kept s (s.send env o) := by
  have h : Kept s { s with sent := s.sent + 1 } := ⟨rfl, rfl, id, fun _ _ => id, Nat.le_refl _, id⟩
  have hq : ∀ s' : Session, Kept s' (s'.queue o) := fun s' => ⟨rfl, rfl, id, fun _ _ => id, Nat.le_refl _, id⟩
  unfold send
  cases env.sends s.sent with
  | queued => exact (h.trans (save_kept _)).trans (hq _)
  | dropped => exact (h.trans (save_kept _)).trans (close_kept _)
  | unsaved => exact h.trans (close_kept _)

@[simp] theorem send_regKey (env : Env) (o : Outbound) (s : Session) : (s.send env o).regKey = s.regKey :=
  (send_kept env o s).regKey

private theorem setInSeq_kept (env : Env) (n : Int) (s : Session) : Kept s (s.setInSeq env n).1 := by
  have h : Kept s { s with
      inSeqNum := n, pending := s.pending.filter fun seq _ => ¬ seq < n, writes := s.writes + 1 } := by
    refine ⟨rfl, rfl, id, fun seq _ hp => ?_, Std.ExtTreeMap.size_filter_le_size, id⟩
    rw [Std.ExtTreeMap.getElem?_filter] at hp
    exact (pfilter_eq_some_iff.1 hp).1
  unfold setInSeq
  cases env.disk s.writes with
  | done => exact (h.trans (setNextIn_kept n _)).trans (record_kept _ _)
  | failed => exact (h.trans (setNextIn_kept n _)).trans (close_kept _)
  | refused => exact h.trans (close_kept _)

private theorem resetStore_kept (env : Env) (s : Session) : Kept s (s.resetStore env) := by
  have h : Kept s { s with writes := s.writes + 1 } := ⟨rfl, rfl, id, fun _ _ => id, Nat.le_refl _, id⟩
  unfold resetStore
  cases env.disk s.writes with
  | done | failed => exact (h.trans (setNextIn_kept 1 _)).trans (record_kept _ _)
  | refused => exact h.trans (record_kept _ _)

theorem restart_kept (env : Env) (n : Int) (s : Session) : Kept s (s.restart env n).1 :=
  (resetStore_kept env s).trans (setInSeq_kept env n _)

private theorem clearResend_kept (s : Session) : Kept s s.clearResend := by
  unfold clearResend
  split
  · exact ⟨rfl, rfl, id, fun _ _ => id, Nat.le_refl _, fun _ => rfl⟩
  · exact .refl s

private theorem advance_kept (env : Env) (n : Int) (s : Session) : Kept s (s.advance env n).1 := by
  have h := setInSeq_kept env n s
  unfold advance
  split <;> rename_i h₁ <;> rw [h₁] at h
  · exact h
  · exact h.trans (clearResend_kept _)

private theorem syncInSeq_kept (s : Session) : Kept s s.syncInSeq := by
  unfold syncInSeq
  split
  · exact .refl s
  · exact ⟨rfl, rfl, id, fun _ _ => id, Nat.le_refl _, id⟩

theorem advanceSchedule_kept (env : Env) (s : Session) : Kept s (s.advanceSchedule env).1 := by
  unfold advanceSchedule
  split
  · exact .refl s
  · exact syncInSeq_kept s
  · exact ((setNextIn_kept 1 s).trans (record_kept _ _)).trans (syncInSeq_kept _)
  · dsimp only
    split
    · exact (setNextIn_kept 1 s).trans (record_kept _ _)
    · exact record_kept _ s
  · exact .refl s

theorem acquireStore_eq_ok {k} (h : s.acquireStore env k = .ok s') :
    s.registry.active k = false ∧
      s' = { s with
        registry := { s.registry with active := Function.update s.registry.active k true }
        regKey := some k
        inSeqNum := s.registry.nextIn k } := by
  unfold acquireStore at h
  obtain ⟨_, hr, hs⟩ := Checked.bind_eq_ok.1 h
  unfold Registry.acquire at hr
  split at hr
  · cases hr
  rename_i hactive
  split at hr
  · cases hr
  cases hr
  cases hs
  exact ⟨by simpa using hactive, rfl⟩

/-- A change of what no number depends on. -/
structure Adjusted (clean : Prop) (s s' : Session) : Prop where
  registry : s'.registry = s.registry
  regKey : s'.regKey = s.regKey
  inSeqNum : s'.inSeqNum = s.inSeqNum
  pending : s'.pending = s.pending
  resendTo : s'.resendTo = s.resendTo
  closed : s.closed → s'.closed
  out : s.out <+: s'.out
  opened : clean → s'.state.isOpen → s.state.isOpen ∨ s.regKey.isSome

/-- A message that waits for the number `seq`. -/
structure Waiting (clean : Prop) (regKey : Option SessionKey) (seq : Int) (msg : Message) : Prop where
  number : atoi (msg.get 34) = some seq
  bounded : seq ≠ maxInt
  identity : validateIdentity msg = none
  logon : clean → msg.msgType = text "A" → regKey = some msg.sessionKey

inductive Atom (clean waits : Prop) : Session → Session → Prop
  | adjust {s s' : Session} : Adjusted clean s s' → Atom clean waits s s'
  | save (s : Session) : Atom clean waits s s.save
  | set (env : Env) (n : Int) (s : Session) : s.inSeqNum ≤ n →
      (clean → s.resendTo = 0 ∨ s.resendTo ≠ s.inSeqNum ∧ n = s.inSeqNum + 1) → Atom clean waits s (s.setInSeq env n).1
  | advance (env : Env) (n : Int) (s : Session) : s.inSeqNum ≤ n → Atom clean waits s (s.advance env n).1
  | consume (env : Env) (s s' : Session) : s.advance env (s.inSeqNum + 1) = (s', true) →
      Atom clean waits s (s'.record (.handled s.inSeqNum))
  | restart (env : Env) (n : Int) (s : Session) : 0 < n → (clean → s.resendTo = 0) →
      Atom clean waits s (s.restart env n).1
  | inSessionReset (env : Env) (s s' : Session) (ok : Bool) : { s with pending := ∅ }.restart env 2 = (s', ok) →
      Atom clean waits s (if ok then { s' with resendTo := 0 } else s')
  | drop (n : Int) (s : Session) : Atom clean waits s { s with pending := s.pending.erase n }
  | wait (seq : Int) (msg : Message) (s : Session) : waits → Waiting clean s.regKey seq msg →
      Atom clean waits s { s with pending := s.pending.insertIfNew seq msg }
  | request (env : Env) (seq : Int) (s : Session) : s.inSeqNum < seq → (clean → s.regKey.isSome) →
      Atom clean waits s (s.requestResend env seq)
  | acquire (env : Env) (k : SessionKey) (s s' : Session) : s.acquireStore env k = .ok s' →
      (clean → s.regKey = none) → Atom clean waits s s'
  | epoch (env : Env) (s : Session) : (clean → s.resendTo = 0) → Atom clean waits s (s.advanceSchedule env).1

abbrev Chain (clean waits : Prop) : Session → Session → Prop := Relation.ReflTransGen (Atom clean waits)

theorem Adjusted.chain (h : Adjusted clean s s') : Chain clean waits s s' := .single (.adjust h)

theorem Adjusted.of_fields (registry : s'.registry = s.registry) (regKey : s'.regKey = s.regKey)
    (inSeqNum : s'.inSeqNum = s.inSeqNum) (pending : s'.pending = s.pending) (resendTo : s'.resendTo = s.resendTo)
    (closed : s.closed → s'.closed) (out : s'.out = s.out)
    (opened : clean → s'.state.isOpen → s.state.isOpen ∨ s.regKey.isSome) : Adjusted clean s s' :=
  ⟨registry, regKey, inSeqNum, pending, resendTo, closed, out ▸ List.prefix_refl _, opened⟩

private theorem requestResend_regKey (env : Env) (seq : Int) (s : Session) :
    (s.requestResend env seq).regKey = s.regKey := by
  unfold requestResend
  split <;> simp

theorem Atom.isSome (h : Atom clean waits s s') (hs : s.regKey.isSome) : s'.regKey.isSome := by
  cases h with
  | adjust h => exact h.regKey ▸ hs
  | save => exact (save_kept s).regKey ▸ hs
  | set env n => exact (setInSeq_kept env n s).regKey ▸ hs
  | advance env n => exact (advance_kept env n s).regKey ▸ hs
  | consume env _ s₁ h =>
    have hkept := advance_kept env (s.inSeqNum + 1) s
    rw [h] at hkept
    exact (hkept.trans (record_kept _ s₁)).regKey ▸ hs
  | restart env n => exact (restart_kept env n s).regKey ▸ hs
  | inSessionReset env _ _ ok h =>
    have hkept := restart_kept env 2 { s with pending := ∅ }
    rw [h] at hkept
    cases ok <;> exact hkept.regKey ▸ hs
  | drop | wait => exact hs
  | request env seq => exact (requestResend_regKey env seq s) ▸ hs
  | acquire _ _ _ _ hacq =>
    obtain ⟨-, rfl⟩ := acquireStore_eq_ok hacq
    rfl
  | epoch env => exact (advanceSchedule_kept env s).regKey ▸ hs

theorem Chain.isSome (h : Chain clean waits s s') (hs : s.regKey.isSome) : s'.regKey.isSome := by
  induction h with
  | refl => exact hs
  | tail _ hstep ih => exact hstep.isSome ih

theorem close_chain (s : Session) : Chain clean waits s s.close :=
  Adjusted.chain (.of_fields (by simp) (by simp) (by simp) (by simp) (by simp) (by simp) (by simp)
    fun _ h => .inl (s.close_state_open h))

private theorem queue_chain (o : Outbound) (s : Session) : Chain clean waits s (s.queue o) :=
  Adjusted.chain ⟨rfl, rfl, rfl, rfl, rfl, id, List.prefix_append _ _, fun _ h => .inl h⟩

private theorem sent_chain (s : Session) (n : Nat) : Chain clean waits s { s with sent := n } :=
  Adjusted.chain (.of_fields rfl rfl rfl rfl rfl id rfl fun _ h => .inl h)

theorem send_chain (env : Env) (o : Outbound) (s : Session) : Chain clean waits s (s.send env o) := by
  have h : Chain clean waits s { s with sent := s.sent + 1 } := sent_chain s _
  unfold send
  cases env.sends s.sent with
  | queued => exact (h.tail (.save _)).trans (queue_chain o _)
  | dropped => exact (h.tail (.save _)).trans (close_chain _)
  | unsaved => exact h.trans (close_chain _)

@[simp] theorem send_inSeqNum (env : Env) (o : Outbound) (s : Session) : (s.send env o).inSeqNum = s.inSeqNum := by
  unfold send
  cases env.sends s.sent <;> simp [queue, save]

private theorem rejectLogon_chain (reason : Bytes) (s : Session) :
    Chain clean waits s (s.rejectLogon env reason).1 := by
  unfold rejectLogon
  dsimp only
  split
  · exact .refl
  · exact send_chain env _ s

private theorem handleResendRequest_chain (msg : Message) (s : Session) :
    Chain clean waits s (s.handleResendRequest env msg) := by
  have h : Chain clean waits s { s with sent := s.sent + 1 } := sent_chain s _
  unfold handleResendRequest
  dsimp only
  split
  · exact h.trans (queue_chain _ _)
  · exact h.trans (close_chain _)

@[simp] theorem handleResendRequest_regKey (msg : Message) (s : Session) :
    (s.handleResendRequest env msg).regKey = s.regKey := by
  unfold handleResendRequest
  dsimp only
  split <;> simp [queue]

@[simp] theorem handleResendRequest_inSeqNum (msg : Message) (s : Session) :
    (s.handleResendRequest env msg).inSeqNum = s.inSeqNum := by
  unfold handleResendRequest
  dsimp only
  split <;> simp [queue]

private theorem setState_chain (state : SessionState) (h : clean → state.isOpen → s.state.isOpen ∨ s.regKey.isSome) :
    Chain clean waits s { s with state } :=
  Adjusted.chain (.of_fields rfl rfl rfl rfl rfl id rfl h)

private theorem resetAtClose_chain (p : Prop) [Decidable p] (s : Session) :
    Chain clean waits s (if p then { s with resetAtClose := true } else s) := by
  split
  · exact Adjusted.chain (.of_fields rfl rfl rfl rfl rfl id rfl fun _ h => .inl h)
  · exact .refl

private theorem handleLogout_chain (hk : clean → s.regKey.isSome) : Chain clean waits s (s.handleLogout env).1 := by
  unfold handleLogout
  refine (resetAtClose_chain (env.resetOnLogout = true) s).trans ?_
  generalize hs' : (if env.resetOnLogout = true then { s with resetAtClose := true } else s) = s'
  have hk' : s'.regKey = s.regKey := by
    rw [← hs']
    split <;> rfl
  dsimp only
  split
  · exact (setState_chain _ fun hc _ => .inr (hk' ▸ hk hc)).trans (send_chain env _ _)
  · exact .refl

private theorem sendLogout_chain (env : Env) (reason : Bytes) (s : Session) :
    Chain clean waits s (s.sendLogout env reason) := by
  unfold sendLogout
  split
  · rename_i h
    exact (setState_chain _ fun _ _ => .inl (by rw [h]; rfl)).trans (send_chain env _ _)
  · exact .refl

private theorem sendLogout_regKey (env : Env) (reason : Bytes) (s : Session) :
    (s.sendLogout env reason).regKey = s.regKey := by
  unfold sendLogout
  split <;> simp

private theorem finishFatal_chain (reason : Bytes) (hk : clean → s.regKey.isSome) :
    Chain clean waits s (s.finishFatal env reason) := by
  unfold finishFatal
  refine (sendLogout_chain env reason s).trans ?_
  dsimp only
  split
  · exact handleLogout_chain fun hc => (sendLogout_regKey env reason s) ▸ hk hc
  · exact .refl

private theorem rejectPossDup_chain (msg : Message) (seq : Int) (reason txt : Bytes) (hk : clean → s.regKey.isSome) :
    Chain clean waits s (s.rejectPossDup env msg seq reason txt).1 := by
  unfold rejectPossDup
  have h : Chain clean waits s (s.sendPossDupReject env msg seq reason txt) := send_chain env _ s
  dsimp only
  split
  · exact h.trans (finishFatal_chain txt (by simpa [sendPossDupReject, sendRejectRef] using hk))
  · exact h

private theorem applyNewSeqNo_chain (msg : Message) (seq : Int) (s : Session) :
    Chain clean waits s (s.applyNewSeqNo env msg seq) := by
  unfold applyNewSeqNo
  dsimp only
  split
  · exact send_chain env _ s
  split
  · exact send_chain env _ s
  · rename_i h
    exact .single (.advance env _ s (by omega))

private theorem handleInSessionReset_chain (seq : Int) (s : Session) :
    Chain clean waits s (s.handleInSessionReset env seq) := by
  unfold handleInSessionReset
  split
  · exact send_chain env _ s
  split <;> rename_i h
  · exact .single (.inSessionReset env s _ false h)
  · exact (Relation.ReflTransGen.single (.inSessionReset env s _ true h)).trans (send_chain env _ _)

private theorem acceptLogon_chain (msg : Message) (seq : Int) (reset gap : Bool) (hk : clean → s.regKey.isSome)
    (hgap : gap → s.inSeqNum < seq) : Chain clean waits s (s.acceptLogon env msg seq reset gap) := by
  unfold acceptLogon
  dsimp only
  generalize (if 0 < msg.getInt 108 then msg.getInt 108 else s.heartBtInt) = heartBtInt
  have hopen : Chain clean waits s { s with target := msg.get 49, heartBtInt, state := .loggedOn } :=
    Adjusted.chain (.of_fields rfl rfl rfl rfl rfl id rfl fun hc _ => .inr (hk hc))
  have hsent := hopen.trans (send_chain env (.logonAck heartBtInt reset) _)
  have hdone : ∀ s' : Session, Chain clean waits s' { s' with loggedOn := true } := fun s' =>
    Adjusted.chain (.of_fields rfl rfl rfl rfl rfl id rfl fun _ h => .inl h)
  split
  · rename_i h
    exact (hsent.tail (.request env seq _ (by simpa using hgap h) (by simpa using hk))).trans (hdone _)
  · exact hsent.trans (hdone _)

private theorem atoi_bounds {v} {n : Int} (h : atoi v = some n) : -2 ^ 63 ≤ n ∧ n ≤ maxInt := by
  unfold atoi at h
  obtain ⟨⟨-, hlow, hhigh⟩, hn⟩ := ite_none_right_eq_some.1 h
  rw [Option.some.injEq] at hn
  rw [hn] at hlow hhigh
  exact ⟨hlow, Int.le_sub_one_of_lt hhigh⟩

private theorem goInt_succ {n : Int} (hlow : -2 ^ 63 ≤ n) (hhigh : n ≤ maxInt) (hn : n ≠ maxInt) :
    goInt (n + 1) = n + 1 := by
  unfold goInt maxInt at *
  rw [Int.bmod_eq_of_le] <;> omega

private theorem logonWithStore_chain (msg : Message) (reset : Bool) (hk : clean → s.regKey.isSome)
    (hr : clean → s.resendTo = 0) (hseq : goInt (seq + 1) = seq + 1) :
    Chain clean waits s (s.logonWithStore env msg seq reset).1 := by
  unfold logonWithStore
  -- A Logon may first reset the store.
  have hreset : ∀ s' ok, (if reset then s.restart env 1 else (s, true)) = (s', ok) →
      Chain clean waits s s' ∧ Kept s s' := by
    intro s' ok h
    split at h
    · rw [← show (s.restart env 1).1 = s' by rw [h]]
      exact ⟨.single (.restart env 1 s (by omega) hr), restart_kept env 1 s⟩
    · cases h
      exact ⟨.refl, .refl s⟩
  split <;> rename_i s₁ h₁
  · exact (hreset _ _ h₁).1
  obtain ⟨hchain, hkept⟩ := hreset _ _ h₁
  have hk₁ : clean → s₁.regKey.isSome := fun hc => hkept.regKey ▸ hk hc
  split
  · exact hchain.trans (rejectLogon_chain _ _)
  split
  · rename_i hgap
    exact hchain.trans (acceptLogon_chain msg seq reset true hk₁ fun _ => hgap)
  rename_i hlow hhigh
  have hset : Chain clean waits s (s₁.setInSeq env (goInt (seq + 1))).1 :=
    hchain.tail (.set env _ s₁ (by omega) fun hc => .inl (hkept.resendTo (hr hc)))
  split <;> rename_i s₂ h₂
  · rwa [h₂] at hset
  have hkept₂ := setInSeq_kept env (goInt (seq + 1)) s₁
  rw [h₂] at hset hkept₂
  exact hset.trans (acceptLogon_chain msg seq reset false (fun hc => hkept₂.regKey ▸ hk₁ hc) (by simp))

/-- What a session may assume of itself before it takes a message. -/
structure Ready (clean : Prop) (s : Session) : Prop where
  waiting : ∀ seq msg, s.pending[seq]? = some msg → Waiting clean s.regKey seq msg
  active : clean → ∀ k, s.regKey = some k → s.registry.active k
  opened : clean → s.state.isOpen → s.regKey.isSome
  fresh : clean → s.regKey = none → s.resendTo = 0

/-- What is assumed of a message. -/
structure Takes (clean : Prop) (s : Session) (msg : Message) : Prop where
  bounded : atoi (msg.get 34) ≠ some maxInt
  identity : clean → validateIdentity msg ≠ none → atoi (msg.get 34) = some s.inSeqNum → s.resendTo ≠ s.inSeqNum
  logon : clean → msg.msgType = text "A" → ∀ k, s.regKey = some k → k = msg.sessionKey

private theorem checkLogon_compID (h : checkLogon env msg = none) : env.keyOf msg = msg.sessionKey := by
  unfold checkLogon at h
  split at h
  · cases h
  split at h
  · cases h
  rename_i h56
  simp only [ne_eq, not_not] at h56
  simp only [Env.keyOf, Message.sessionKey, h56]

private theorem handleLogon_chain (env : Env) (hs : Ready clean s) (hm : Takes clean s msg)
    (htype : msg.msgType = text "A") (hseq : goInt (seq + 1) = seq + 1) :
    Chain clean waits s (s.handleLogon env msg seq).1 ∧
      ∀ e, (s.handleLogon env msg seq).2 = .error e → (s.handleLogon env msg seq).1.regKey.isSome := by
  unfold handleLogon
  split
  · exact ⟨rejectLogon_chain _ _, nofun⟩
  rename_i hcheck
  have hkey := checkLogon_compID hcheck
  split
  · dsimp only
    split
    · exact ⟨rejectLogon_chain _ _, nofun⟩
    · exact ⟨(send_chain env _ _).trans (rejectLogon_chain _ _), nofun⟩
  dsimp only
  split
  · exact ⟨rejectLogon_chain _ _, nofun⟩
  split
  · exact ⟨rejectLogon_chain _ _, nofun⟩
  rename_i s₁ hacq
  obtain ⟨hfree, heq⟩ := acquireStore_eq_ok hacq
  -- The session of the message is not held, so the connection holds none.
  have hnone : clean → s.regKey = none := by
    intro hc
    rcases hreg : s.regKey with _ | k
    · rfl
    have hk : k = env.keyOf msg := (hm.logon hc htype k hreg).trans hkey.symm
    have hactive := hs.active hc k hreg
    rw [hk, hfree] at hactive
    cases hactive
  have hto : clean → s₁.resendTo = 0 := fun hc => by
    rw [heq]
    exact hs.fresh hc (hnone hc)
  have hchain : Chain clean waits s s₁ := .single (.acquire env _ s s₁ hacq hnone)
  have hepoch : Chain clean waits s (s₁.advanceSchedule env).1 := hchain.tail (.epoch env s₁ hto)
  have hkept := advanceSchedule_kept env s₁
  have hsome : s₁.regKey.isSome := by
    rw [heq]
    rfl
  split
  · rename_i h₂
    rw [h₂] at hepoch hkept
    exact ⟨hepoch, fun _ _ => hkept.regKey ▸ hsome⟩
  rename_i s₂ h₂
  rw [h₂] at hepoch hkept
  have hlogon : ∀ reset, Chain clean waits s₂ (s₂.logonWithStore env msg seq reset).1 := fun reset =>
    logonWithStore_chain msg reset (fun _ => hkept.regKey ▸ hsome) (fun hc => hkept.resendTo (hto hc)) hseq
  exact ⟨hepoch.trans (hlogon _), fun _ _ => (hlogon _).isSome (hkept.regKey ▸ hsome)⟩

private theorem dispatchLow_chain (hk : clean → s.regKey.isSome) :
    Chain clean waits s (s.dispatchLow env msg seq).1 := by
  unfold dispatchLow
  dsimp only
  split
  · split
    · exact send_chain env _ s
    split
    · exact send_chain env _ s
    generalize (if decide (msg.get 43 = text "Y") = true then env.checkPossDup msg else none) = dup
    cases dup with
    | none => exact handleResendRequest_chain msg s
    | some r => exact rejectPossDup_chain msg seq r.1 r.2 hk
  · split
    · exact handleLogout_chain hk
    split
    · exact .refl
    split
    · exact rejectPossDup_chain msg seq _ _ hk
    · exact .refl

private theorem dispatchHigh_chain (hwaits : waits) (hk : clean → s.regKey.isSome) (hm : Takes clean s msg)
    (hnum : atoi (msg.get 34) = some seq) (hid : validateIdentity msg = none) (hseq : s.inSeqNum < seq) :
    Chain clean waits s (s.dispatchHigh env msg seq).1 := by
  unfold dispatchHigh
  split
  · exact (handleResendRequest_chain msg s).tail (.request env seq _ (by simpa using hseq) (by simpa using hk))
  split
  · exact handleLogout_chain hk
  split
  · exact .refl
  have hwait : Waiting clean s.regKey seq msg := by
    refine ⟨hnum, fun h => hm.bounded (h ▸ hnum), hid, fun hc htype => ?_⟩
    obtain ⟨k, hreg⟩ := isSome_iff_exists.1 (hk hc)
    rw [hreg, hm.logon hc htype k hreg]
  exact .tail (.single (.wait seq msg s hwaits hwait)) (.request env seq _ hseq hk)

/-- A consumed message is handled at once, or never. -/
theorem process_cases (msgType : Bytes) (hk : clean → s.regKey.isSome) :
    (s.process env msgType msg seq).1 = s.record (.handled seq) ∨
    Chain clean waits s (s.process env msgType msg seq).1 := by
  unfold process
  split
  · exact .inr (send_chain env _ s)
  split
  · exact .inr .refl
  split
  · exact .inr (handleLogout_chain hk)
  split
  · exact .inr .refl
  split
  · exact .inr (send_chain env _ s)
  split
  · exact .inr (handleResendRequest_chain msg s)
  split
  · exact .inr .refl
  split
  · exact .inr (applyNewSeqNo_chain msg seq s)
  · exact .inl rfl

private theorem checkConsumed_cases (env : Env) (msg : Message) (seq : Int) (hk : clean → s.regKey.isSome) :
    (s.checkConsumed env msg seq).1 = s.record (.handled seq) ∨
    Chain clean waits s (s.checkConsumed env msg seq).1 := by
  unfold checkConsumed
  generalize (if msg.get 43 = text "Y" then env.checkPossDup msg else none) = dup
  cases dup with
  | some r => exact .inr (rejectPossDup_chain msg seq r.1 r.2 hk)
  | none =>
    dsimp only
    split
    · exact .inr (send_chain env _ s)
    split
    · rename_i reason txt _
      have hsend : Chain clean waits s (s.sendRejectRef env seq 0 msg.msgType reason txt) := send_chain env _ s
      refine .inr ?_
      split
      · exact hsend.trans (finishFatal_chain txt (by simpa [sendRejectRef] using hk))
      · exact hsend
    · split
      · exact .inr (send_chain env _ s)
      split
      · exact .inl rfl
      · exact process_cases _ hk

private theorem dispatchExpected_chain (hk : clean → s.regKey.isSome) (hnum : goInt (s.inSeqNum + 1) = s.inSeqNum + 1) :
    Chain clean waits s (s.dispatchExpected env msg s.inSeqNum).1 := by
  have hadvance : Chain clean waits s (s.advance env (s.inSeqNum + 1)).1 := .single (.advance env _ s (by omega))
  have hkept := advance_kept env (s.inSeqNum + 1) s
  unfold dispatchExpected
  rw [hnum]
  split <;> rename_i s₁ h₁ <;> rw [h₁] at hadvance hkept
  · exact hadvance
  have hk₁ : clean → s₁.regKey.isSome := fun hc => hkept.regKey ▸ hk hc
  rcases checkConsumed_cases env msg s.inSeqNum hk₁ with h | h
  · rw [h]
    exact .single (.consume env s s₁ h₁)
  · exact hadvance.trans h

private theorem rejectIdentity_chain (v : Violation) (hm : Takes clean s msg) (hnum : atoi (msg.get 34) = some seq)
    (hid : validateIdentity msg ≠ none) (hseq : goInt (seq + 1) = seq + 1) :
    Chain clean waits s (s.rejectIdentity env msg seq v).1 := by
  unfold rejectIdentity
  have hset : ∀ s' ok, (if seq = s.inSeqNum then s.setInSeq env (goInt (seq + 1)) else (s, true)) = (s', ok) →
      Chain clean waits s s' := by
    intro s' ok h
    split at h
    · rename_i heq
      rw [← show (s.setInSeq env (goInt (seq + 1))).1 = s' by rw [h], hseq, heq]
      exact .single (.set env _ s (by omega) fun hc => .inr ⟨hm.identity hc hid (heq ▸ hnum), rfl⟩)
    · cases h
      exact .refl
  split <;> rename_i h
  · exact hset _ _ h
  · exact (hset _ _ h).trans (send_chain env _ _)

private theorem dispatchOpen_chain (env : Env) (hwaits : s.inSeqNum < seq → waits) (hk : clean → s.regKey.isSome)
    (hm : Takes clean s msg)
    (hnum : atoi (msg.get 34) = some seq) (hseq : goInt (seq + 1) = seq + 1) :
    Chain clean waits s (s.dispatchOpen env msg seq).1 := by
  unfold dispatchOpen
  split
  · rename_i v hv
    exact rejectIdentity_chain v hm hnum (by simp [hv]) hseq
  rename_i hid
  split
  · exact send_chain env _ s
  split
  · split
    · exact send_chain env _ s
    · exact applyNewSeqNo_chain msg seq s
  split
  · exact handleInSessionReset_chain seq s
  split
  · exact dispatchLow_chain hk
  split
  · rename_i hhigh
    exact dispatchHigh_chain (hwaits hhigh) hk hm hnum hid hhigh
  · obtain rfl : seq = s.inSeqNum := by omega
    exact dispatchExpected_chain hk hseq

private theorem dispatchOne_chain (env : Env) (hwaits : ∀ seq, atoi (msg.get 34) = some seq → s.inSeqNum < seq → waits)
    (hs : Ready clean s) (hm : Takes clean s msg) :
    Chain clean waits s (s.dispatchOne env msg).1 ∧
      (clean → ∀ e, (s.dispatchOne env msg).2 = .error e → (s.dispatchOne env msg).1.regKey.isSome) := by
  unfold dispatchOne
  split
  · split
    · rename_i hopen
      exact ⟨.refl, fun hc _ _ => hs.opened hc hopen⟩
    · exact ⟨rejectLogon_chain _ _, nofun⟩
  rename_i seq hseq
  have hnum : atoi (msg.get 34) = some seq := (filter_eq_some_iff.1 hseq).1
  obtain ⟨hlow, hhigh⟩ := atoi_bounds hnum
  have hsucc : goInt (seq + 1) = seq + 1 := goInt_succ hlow hhigh fun h => hm.bounded (h ▸ hnum)
  split
  · rename_i hopen
    have hchain := dispatchOpen_chain env (hwaits seq hnum) (fun hc => hs.opened hc hopen) hm hnum hsucc
    exact ⟨hchain, fun hc _ _ => hchain.isSome (hs.opened hc hopen)⟩
  split
  · exact ⟨rejectLogon_chain _ _, nofun⟩
  rename_i htype
  obtain ⟨hchain, herror⟩ := handleLogon_chain env hs hm (by simpa using htype) hsucc
  exact ⟨hchain, fun _ => herror⟩

theorem Kept.ready (h : Kept s s') (hs : Ready clean s) : Ready clean s' where
  waiting := fun seq msg hp => h.regKey ▸ hs.waiting seq msg (h.pending seq msg hp)
  active := fun hc k hk => by
    rw [h.active]
    exact hs.active hc k (h.regKey ▸ hk)
  opened := fun hc ho => h.regKey ▸ hs.opened hc (h.opened ho)
  fresh := fun hc hk => h.resendTo (hs.fresh hc (h.regKey ▸ hk))

theorem Atom.ready (h : Atom clean waits s s') (hs : Ready clean s) : Ready clean s' := by
  cases h with
  | adjust h =>
    refine ⟨fun seq msg hp => ?_, fun hc k hk => ?_, fun hc ho => ?_, fun hc hk => ?_⟩
    · rw [h.pending] at hp
      exact h.regKey ▸ hs.waiting seq msg hp
    · rw [h.registry]
      exact hs.active hc k (h.regKey ▸ hk)
    · rw [h.regKey]
      exact (h.opened hc ho).elim (hs.opened hc) id
    · rw [h.resendTo]
      exact hs.fresh hc (h.regKey ▸ hk)
  | save => exact (save_kept s).ready hs
  | set env n => exact (setInSeq_kept env n s).ready hs
  | advance env n => exact (advance_kept env n s).ready hs
  | consume env _ s₁ h =>
    have hkept := advance_kept env (s.inSeqNum + 1) s
    rw [h] at hkept
    exact (hkept.trans (record_kept _ s₁)).ready hs
  | restart env n => exact (restart_kept env n s).ready hs
  | inSessionReset env _ s₁ ok h =>
    have hempty : Kept s { s with pending := ∅ } := ⟨rfl, rfl, id, by simp, by simp, id⟩
    have hkept := hempty.trans (restart_kept env 2 _)
    rw [h] at hkept
    cases ok
    · exact hkept.ready hs
    · have hzero : Kept s₁ { s₁ with resendTo := 0 } := ⟨rfl, rfl, id, fun _ _ => id, Nat.le_refl _, fun _ => rfl⟩
      exact (hkept.trans hzero).ready hs
  | drop n =>
    have hkept : Kept s { s with pending := s.pending.erase n } := by
      refine ⟨rfl, rfl, id, fun seq msg hp => ?_, Std.ExtTreeMap.size_erase_le, id⟩
      rw [Std.ExtTreeMap.getElem?_erase] at hp
      split at hp
      · cases hp
      · exact hp
    exact hkept.ready hs
  | wait _ _ _ _ hw =>
    refine ⟨fun seq' msg' hp => ?_, hs.active, hs.opened, hs.fresh⟩
    rw [Std.ExtTreeMap.getElem?_insertIfNew] at hp
    split at hp
    · rename_i heq
      cases hp
      exact Std.LawfulEqCmp.eq_of_compare heq.1 ▸ hw
    · exact hs.waiting seq' msg' hp
  | request env seq _ _ hk =>
    unfold requestResend
    have hset : ∀ n : Int, Ready clean { s with resendTo := n } := fun n =>
      ⟨hs.waiting, hs.active, hs.opened, fun hc hnone => absurd (hk hc) (by simp_all)⟩
    split
    · exact hset _
    · exact (send_kept env _ _).ready (hset seq)
  | acquire _ _ _ _ hacq hnone =>
    obtain ⟨-, rfl⟩ := acquireStore_eq_ok hacq
    refine ⟨fun seq msg hp => ?_, fun _ _ hk' => ?_, fun _ _ => rfl, fun _ hk' => ?_⟩
    · have hw := hs.waiting seq msg hp
      refine ⟨hw.number, hw.bounded, hw.identity, fun hc htype => ?_⟩
      have hkey := hw.logon hc htype
      rw [hnone hc] at hkey
      cases hkey
    · cases hk'
      simp
    · cases hk'
  | epoch env => exact (advanceSchedule_kept env s).ready hs

theorem Chain.ready (h : Chain clean waits s s') (hs : Ready clean s) : Ready clean s' := by
  induction h with
  | refl => exact hs
  | tail _ hstep ih => exact hstep.ready ih

theorem Waiting.takes (hw : Waiting clean s.regKey seq msg) : Takes clean s msg where
  bounded := fun h => hw.bounded (Option.some.inj (hw.number.symm.trans h))
  identity := fun _ hid _ => absurd hw.identity hid
  logon := fun hc htype _ hk => Option.some.inj (hk.symm.trans (hw.logon hc htype))

private theorem dispatchOne_waiting (env : Env) (waits : Prop) (hs : Ready clean s)
    (hnext : s.pending[s.inSeqNum]? = some msg) :
    let s₁ := { s with pending := s.pending.erase s.inSeqNum }
    Chain clean waits s₁ (s₁.dispatchOne env msg).1 ∧
      (clean → ∀ e, (s₁.dispatchOne env msg).2 = .error e → (s₁.dispatchOne env msg).1.regKey.isSome) := by
  intro s₁
  have hdrop : Atom clean waits s s₁ := .drop _ s
  have hw := hs.waiting _ _ hnext
  refine dispatchOne_chain env (fun _ hseq hlt => ?_) (hdrop.ready hs) (Waiting.takes (s := s₁) hw)
  cases hw.number.symm.trans hseq
  exact absurd hlt (Int.lt_irrefl _)

private theorem drain_chain (env : Env) (fuel : Nat) (r : Session × Result) (hs : Ready clean r.1)
    (herror : clean → ∀ e, r.2 = .error e → r.1.regKey.isSome) :
    Chain clean True r.1 (Loop.run (drainStep env) fuel r).1 ∧
      (clean → ∀ e, (Loop.run (drainStep env) fuel r).2 = .error e →
        (Loop.run (drainStep env) fuel r).1.regKey.isSome) := by
  refine Loop.run_induct (P := fun r' : Session × Result =>
    Chain clean True r.1 r'.1 ∧ (clean → ∀ e, r'.2 = .error e → r'.1.regKey.isSome)) ?_ _ ⟨.refl, herror⟩
  rintro ⟨s₁, result⟩ _ ⟨hchain, -⟩ hstep
  cases result with
  | eof | error => cases hstep
  | ok =>
    obtain ⟨_, hnext, rfl⟩ := map_eq_some_iff.1 hstep
    obtain ⟨hone, herror'⟩ := dispatchOne_waiting env True (hchain.ready hs) hnext
    exact ⟨(hchain.tail (.drop _ s₁)).trans hone, herror'⟩

/-- A message and those that waited for it, as a chain of steps. -/
theorem dispatch_chain (env : Env) (hs : Ready clean s) (hm : Takes clean s msg) :
    Chain clean True (s.dispatchOne env msg).1 (s.dispatch env msg).1 ∧
      Chain clean True s (s.dispatch env msg).1 ∧
      (clean → ∀ e, (s.dispatch env msg).2 = .error e → (s.dispatch env msg).1.regKey.isSome) := by
  obtain ⟨hone, herror⟩ : Chain clean True s (s.dispatchOne env msg).1 ∧ _ :=
    dispatchOne_chain env (fun _ _ _ => trivial) hs hm
  obtain ⟨hdrain, herror'⟩ := drain_chain env _ (s.dispatchOne env msg) (hone.ready hs) herror
  exact ⟨hdrain, hone.trans hdrain, herror'⟩

theorem Atom.pending_size (h : Atom clean False s s') : s'.pending.size ≤ s.pending.size := by
  cases h with
  | adjust h => exact Nat.le_of_eq (congrArg _ h.pending)
  | save => exact (save_kept s).size
  | set env n => exact (setInSeq_kept env n s).size
  | advance env n => exact (advance_kept env n s).size
  | consume env _ s₁ h =>
    have hkept := advance_kept env (s.inSeqNum + 1) s
    rw [h] at hkept
    exact (hkept.trans (record_kept _ s₁)).size
  | restart env n => exact (restart_kept env n s).size
  | inSessionReset env _ s₁ ok h =>
    have hkept := restart_kept env 2 { s with pending := ∅ }
    rw [h] at hkept
    have hsize : s₁.pending.size ≤ 0 := by simpa using hkept.size
    cases ok <;> exact Nat.le_trans hsize (Nat.zero_le _)
  | drop => exact Std.ExtTreeMap.size_erase_le
  | wait _ _ _ hfalse => exact hfalse.elim
  | request env =>
    unfold requestResend
    split
    · exact Nat.le_refl _
    · exact (send_kept env _ _).size
  | acquire _ _ _ _ hacq =>
    obtain ⟨-, rfl⟩ := acquireStore_eq_ok hacq
    exact Nat.le_refl _
  | epoch env => exact (advanceSchedule_kept env s).size

theorem Chain.pending_size (h : Chain clean False s s') : s'.pending.size ≤ s.pending.size := by
  induction h with
  | refl => exact Nat.le_refl _
  | tail _ hstep ih => exact Nat.le_trans hstep.pending_size ih

/-- `dispatch` stops by itself: after it no message waits for the expected number, unless the session ends. -/
theorem dispatch_done (env : Env) (hs : Ready clean s) (hm : Takes clean s msg)
    (hok : (s.dispatch env msg).2 = .ok) :
    (s.dispatch env msg).1.pending[(s.dispatch env msg).1.inSeqNum]? = none := by
  have hdone : drainStep env (s.dispatch env msg) = none := by
    unfold dispatch
    refine Loop.run_done (P := fun r : Session × Result => Ready clean r.1) (fun r => r.1.pending.size) ?_
      ((dispatchOne_chain env (fun _ _ _ => trivial) hs hm).1.ready hs) (Nat.lt_succ_self _)
    rintro ⟨s₁, result⟩ _ hready hstep
    cases result with
    | eof | error => cases hstep
    | ok =>
      obtain ⟨next, hnext, rfl⟩ := map_eq_some_iff.1 hstep
      have hdrop : Atom clean False s₁ { s₁ with pending := s₁.pending.erase s₁.inSeqNum } := .drop _ s₁
      obtain ⟨hone, -⟩ := dispatchOne_waiting env False hready hnext
      refine ⟨hone.ready (hdrop.ready hready), Nat.lt_of_le_of_lt hone.pending_size ?_⟩
      have hmem : s₁.inSeqNum ∈ s₁.pending := by
        rw [Std.ExtTreeMap.mem_iff_isSome_getElem?, show s₁.pending[s₁.inSeqNum]? = some next from hnext]
        rfl
      have hpos : s₁.pending.size ≠ 0 := fun h0 => by
        simp [Std.ExtTreeMap.eq_empty_iff_size_eq_zero.2 h0] at hmem
      have hsize : (s₁.pending.erase s₁.inSeqNum).size = s₁.pending.size - 1 := by
        rw [Std.ExtTreeMap.size_erase]
        exact if_pos hmem
      show (s₁.pending.erase s₁.inSeqNum).size < s₁.pending.size
      omega
  generalize s.dispatch env msg = r at *
  obtain ⟨_, _⟩ := r
  cases hok
  exact map_eq_none_iff.1 hdone

theorem read_chain (env : Env) (frame : Except ParseError Message) (hs : Ready clean s)
    (hm : ∀ msg, frame = .ok msg → Takes clean s msg) : Chain clean True s (s.read env frame).1 := by
  unfold read
  split
  · dsimp only
    split
    · rename_i hopen
      exact finishFatal_chain _ fun hc => hs.opened hc hopen
    · exact rejectLogon_chain _ _
  · exact .refl
  · exact .refl
  rename_i msg
  obtain ⟨-, hchain, herror⟩ := dispatch_chain env hs (hm msg rfl)
  split <;> rename_i h <;> rw [h] at hchain herror
  · exact hchain
  · exact hchain
  · exact hchain.trans (finishFatal_chain _ fun hc => herror hc _ rfl)

theorem logout_chain (env : Env) (reason : Bytes) (s : Session) : Chain clean waits s (s.logout env reason) := by
  unfold logout
  exact (resetAtClose_chain (env.resetOnLogout = true) s).trans (sendLogout_chain env reason _)

theorem endOfSchedule_chain (env : Env) (s : Session) : Chain clean waits s (s.endOfSchedule env) := by
  unfold endOfSchedule
  split
  · have h : Chain clean waits s { s with resetAtClose := true } :=
      Adjusted.chain (.of_fields rfl rfl rfl rfl rfl id rfl fun _ h => .inl h)
    exact (h.trans (logout_chain env _ _)).trans (close_chain _)
  · exact .refl

end Session

end Fxp.Fix
