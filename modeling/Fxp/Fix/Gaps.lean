import Fxp.Fix.Inbound

/-!
# Gaps are asked for

A session that misses messages asks for them once and remembers in `resendTo` how far the request reaches. It asks
again only when `resendTo` is zero, so `resendTo` must not stay behind the expected number (`Covers`).
-/

namespace Fxp.Fix

open List Option

namespace Session

variable {waits : Prop} {env : Env} {s s' : Session} {n : Int}

/-- A ResendRequest that was sent asks for the expected number. -/
def Asked (s : Session) : Prop := s.inSeqNum ≤ s.resendTo ∧ ∃ b ≤ s.inSeqNum, .resendRequest b ∈ s.out

/-- An open session waits for nothing, or for messages it asked for. -/
def Covers (s : Session) : Prop := s.closed ∨ s.resendTo = 0 ∨ s.Asked

theorem Covers.of_eq (h : Covers s) (hclosed : s.closed → s'.closed) (hin : s'.inSeqNum = s.inSeqNum)
    (hto : s'.resendTo = s.resendTo) (hout : s.out <+: s'.out) : Covers s' := by
  rcases h with h | h | ⟨_, b, _, hmem⟩
  · exact .inl (hclosed h)
  · exact .inr (.inl (hto.trans h))
  refine .inr (.inr ⟨?_, b, ?_, hout.subset hmem⟩)
  · rwa [hin, hto]
  · rwa [hin]

private theorem withStore_covers (f : Registry → SessionKey → Registry) (h : Covers s) : Covers (s.withStore f) :=
  h.of_eq (by simp) (by simp) (by simp) (by simp)

private theorem setInSeq_eq (env : Env) (n : Int) (s : Session) :
    (s.setInSeq env n).1.inSeqNum = n ∧ (s.setInSeq env n).1.resendTo = s.resendTo ∧
      (s.setInSeq env n).1.out = s.out ∧ (s.closed → (s.setInSeq env n).1.closed) ∧
      ((s.setInSeq env n).2 = false → (s.setInSeq env n).1.closed) := by
  unfold setInSeq
  cases env.disk s.writes <;> simp [setNextIn, record]

theorem Covers.setInSeq (h : Covers s) (hn : s.inSeqNum ≤ n) (hto : s.resendTo = 0 ∨ n ≤ s.resendTo) :
    Covers (s.setInSeq env n).1 := by
  obtain ⟨hin, hto', hout, hclosed, -⟩ := setInSeq_eq env n s
  rcases h with h | h | ⟨_, b, _, hmem⟩
  · exact .inl (hclosed h)
  · exact .inr (.inl (hto'.trans h))
  rcases hto with h0 | hto
  · exact .inr (.inl (hto'.trans h0))
  refine .inr (.inr ⟨?_, b, ?_, hout ▸ hmem⟩)
  · rwa [hin, hto']
  · rw [hin]
    omega

theorem Covers.advance (h : Covers s) (env : Env) (hn : s.inSeqNum ≤ n) : Covers (s.advance env n).1 := by
  obtain ⟨hin, hto, hout, hclosed, hfail⟩ := setInSeq_eq env n s
  unfold Session.advance
  split <;> rename_i s₁ heq <;> rw [heq] at hin hto hout hclosed hfail
  · exact .inl (hfail rfl)
  unfold clearResend
  split
  · exact .inr (.inl rfl)
  rename_i hkeep
  -- The request still covers the number that is expected now.
  rcases h with h | h | ⟨_, b, _, hmem⟩
  · exact .inl (hclosed h)
  · exact .inr (.inl (hto.trans h))
  by_cases h0 : s₁.resendTo = 0
  · exact .inr (.inl h0)
  have hle' : s₁.inSeqNum ≤ s₁.resendTo := by
    by_contra hlt
    exact hkeep ⟨h0, by omega⟩
  refine .inr (.inr ⟨hle', b, ?_, hout ▸ hmem⟩)
  have hin' : s₁.inSeqNum = n := hin
  show b ≤ s₁.inSeqNum
  omega

private theorem restart_covers (hto : s.resendTo = 0) : Covers (s.restart env n).1 :=
  .inr (.inl ((restart_kept env n s).resendTo hto))

private theorem request_covers (env : Env) {seq : Int} (h : Covers s) (hseq : s.inSeqNum < seq) :
    Covers (s.requestResend env seq) := by
  unfold requestResend
  split
  · rename_i hto
    rcases h with h | h | ⟨_, b, hb, hmem⟩
    · exact .inl h
    · exact absurd h hto
    refine .inr (.inr ⟨?_, b, hb, hmem⟩)
    dsimp only
    split <;> omega
  · unfold send
    cases env.sends s.sent with
    | queued =>
      refine .inr (.inr ⟨?_, s.inSeqNum, ?_, ?_⟩)
      · simpa [queue, save] using Int.le_of_lt hseq
      · simp [queue, save]
      · simp [queue]
    | dropped | unsaved => exact .inl (close_closed _)

theorem Atom.covers (h : Atom True waits s s') (hready : Ready True s) (hs : Covers s) : Covers s' := by
  cases h with
  | adjust h => exact hs.of_eq h.closed h.inSeqNum h.resendTo h.out
  | save => exact withStore_covers _ hs
  | set env n _ hn hto =>
    rcases hs with hs | hs | hs
    · exact .inl ((setInSeq_eq env n s).2.2.2.1 hs)
    · exact .inr (.inl ((setInSeq_eq env n s).2.1.trans hs))
    refine Covers.setInSeq (.inr (.inr hs)) hn ((hto trivial).imp_right fun ⟨hne, heq⟩ => ?_)
    have := hs.1
    omega
  | advance env _ _ hn => exact hs.advance env hn
  | consume env _ _ h =>
    have hadv := hs.advance env (Int.le_add_one (Int.le_refl s.inSeqNum))
    rw [h] at hadv
    exact withStore_covers _ hadv
  | restart _ _ _ _ hto => exact restart_covers (hto trivial)
  | inSessionReset env _ _ ok h =>
    cases ok
    · have hfail := (setInSeq_eq env 2 (({ s with pending := ∅ } : Session).resetStore env)).2.2.2.2
      unfold Session.restart at h
      rw [h] at hfail
      exact .inl (hfail rfl)
    · exact .inr (.inl rfl)
  | drop | wait => exact hs
  | request env _ _ hseq => exact request_covers env hs hseq
  | acquire _ _ _ _ hacq hnone =>
    obtain ⟨-, rfl⟩ := acquireStore_eq_ok hacq
    exact .inr (.inl (hready.fresh trivial (hnone trivial)))
  | epoch env _ hto => exact .inr (.inl ((advanceSchedule_kept env s).resendTo (hto trivial)))

theorem Chain.covers (h : Chain True waits s s') (hready : Ready True s) (hs : Covers s) : Covers s' := by
  induction h with
  | refl => exact hs
  | tail hchain hstep ih => exact hstep.covers (Chain.ready hchain hready) ih

private theorem send_out (env : Env) (o : Outbound) (s : Session) : s.out <+: (s.send env o).out := by
  unfold send
  cases env.sends s.sent <;> simp [queue, save]

private theorem advance_out (env : Env) (n : Int) (s : Session) : (s.advance env n).1.out = s.out := by
  have hout := (setInSeq_eq env n s).2.2.1
  unfold Session.advance clearResend
  split <;> rename_i heq <;> rw [heq] at hout
  · exact hout
  · dsimp only
    split <;> exact hout

private theorem resetStore_out (env : Env) (s : Session) : (s.resetStore env).out = s.out := by
  unfold resetStore
  cases env.disk s.writes <;> simp [setNextIn, record]

private theorem restart_out (env : Env) (n : Int) (s : Session) : (s.restart env n).1.out = s.out :=
  ((setInSeq_eq env n _).2.2.1).trans (resetStore_out env s)

private theorem advanceSchedule_out (env : Env) (s : Session) : (s.advanceSchedule env).1.out = s.out := by
  have hsync : ∀ t : Session, t.syncInSeq.out = t.out := fun t => by
    unfold syncInSeq
    split <;> rfl
  unfold advanceSchedule
  split
  · rfl
  · exact hsync s
  · simp [hsync, setNextIn, record]
  · dsimp only
    split <;> simp [setNextIn, record]
  · rfl

variable {clean : Prop}

private theorem out_of_eq (h : s'.out = s.out) : s.out <+: s'.out := h ▸ prefix_refl _

theorem Atom.out_le (h : Atom clean waits s s') : s.out <+: s'.out := by
  cases h with
  | adjust h => exact h.out
  | save => exact out_of_eq (withStore_out _ s)
  | set env n => exact out_of_eq (setInSeq_eq env n s).2.2.1
  | advance env n => exact out_of_eq (advance_out env n s)
  | consume env _ s₁ h =>
    have hout := advance_out env (s.inSeqNum + 1) s
    rw [h] at hout
    exact out_of_eq ((withStore_out _ s₁).trans hout)
  | restart env n => exact out_of_eq (restart_out env n s)
  | inSessionReset env _ _ ok h =>
    have hout := restart_out env 2 { s with pending := ∅ }
    rw [h] at hout
    cases ok <;> exact out_of_eq hout
  | drop | wait => exact prefix_refl _
  | request env seq =>
    unfold requestResend
    split
    · exact prefix_refl _
    · exact send_out env _ { s with resendTo := seq }
  | acquire _ _ _ _ hacq =>
    obtain ⟨-, rfl⟩ := acquireStore_eq_ok hacq
    exact prefix_refl _
  | epoch env => exact out_of_eq (advanceSchedule_out env s)

theorem Chain.out_le (h : Chain clean waits s s') : s.out <+: s'.out := by
  induction h with
  | refl => exact prefix_refl _
  | tail _ hstep ih => exact ih.trans hstep.out_le

/-- A message whose number reveals a gap and which does not end the session: it is no Logout, and the buffer has room.
-/
structure Reveals (env : Env) (s : Session) (msg : Message) (seq : Int) : Prop where
  number : atoi (msg.get 34) = some seq
  early : s.inSeqNum < seq
  identity : validateIdentity msg = none
  sender : msg.get 49 = s.target
  receiver : msg.get 56 = env.senderCompID
  counts : isReset msg = false ∧ isLogonReset msg = false
  stays : msg.msgType ≠ text "5"
  room : msg.msgType = text "2" ∨ s.bufferFull msg seq = false

private theorem requestResend_sent {seq : Int} (hto : s.resendTo = 0) (hsends : ∀ n, env.sends n = .queued) :
    (s.requestResend env seq).out = s.out ++ [.resendRequest s.inSeqNum] := by
  unfold requestResend send
  simp [hto, hsends, queue, save]

/-- A session that asked for nothing asks for the messages that a new one reveals to be missing. -/
theorem dispatchOne_reveals {msg} {seq : Int} (h : Reveals env s msg seq) (hopen : s.state.isOpen)
    (hpos : 0 < s.inSeqNum) (hto : s.resendTo = 0) (hsends : ∀ n, env.sends n = .queued) :
    ∃ sent, (s.dispatchOne env msg).1.out = s.out ++ sent ∧ .resendRequest s.inSeqNum ∈ sent := by
  have hnum : s.msgSeqNum msg = some seq := by
    unfold msgSeqNum
    rw [h.number, filter_eq_some_iff]
    have := h.early
    exact ⟨rfl, by simp; omega⟩
  have hlow : ¬ seq < s.inSeqNum := by
    have := h.early
    omega
  have hcomp : ¬ (msg.get 49 ≠ s.target ∨ msg.get 56 ≠ env.senderCompID) := by
    simp [h.sender, h.receiver]
  have hone : s.dispatchOne env msg = s.dispatchHigh env msg seq := by
    unfold dispatchOne dispatchOpen
    simp only [hnum, hopen, h.identity, if_neg hcomp, h.counts, hlow, h.early, if_true, if_false, Bool.false_eq_true]
  rw [hone]
  unfold dispatchHigh
  by_cases htype : msg.msgType = text "2"
  · -- The peer asks for messages itself, and is answered first.
    have hreplay : (s.handleResendRequest env msg).out = s.out ++ [.replay msg] ∧
        (s.handleResendRequest env msg).resendTo = s.resendTo := by
      unfold handleResendRequest
      simp [hsends, queue]
    rw [if_pos htype]
    refine ⟨[.replay msg, .resendRequest s.inSeqNum], ?_, by simp⟩
    rw [requestResend_sent (hreplay.2.trans hto) hsends, hreplay.1, handleResendRequest_inSeqNum]
    simp
  · rw [if_neg htype, if_neg h.stays, if_neg (by simpa using h.room.resolve_left htype)]
    exact ⟨[.resendRequest s.inSeqNum], requestResend_sent hto hsends, by simp⟩

end Session

namespace World

/-- In every state on the way, what `Admits` says of the next frame. -/
def Orderly (moves : List Move) : Prop :=
  ∀ before m rest, moves = before ++ m :: rest → (after before).Admits True (actionOf m)

/-- Every connection asked for what it misses. -/
def Covering (w : World) : Prop := ∀ i s, w.conns i = some s → s.Covers

variable {w : World}

theorem Covering.update {i : Nat} {f : Session → Session × Bool} (h : w.Covering)
    (hf : ∀ s, w.conns i = some s → (f (w.on s)).1.Covers) : (w.update i f).Covering := by
  unfold World.update
  split
  · exact h
  rename_i s hi
  intro j t hj
  by_cases hji : j = i
  · subst hji
    rw [show t = (f (w.on s)).1 by simpa using hj.symm]
    exact hf s hi
  · exact h j t (by simpa [Function.update_of_ne hji] using hj)

theorem Covering.act (h : w.Covering) (hgood : w.Good True) (a : Action) (ha : w.Admits True a) :
    (w.act a).Covering := by
  have hchain : ∀ {i s} {s' : Session}, w.conns i = some s → (w.on s).Chain True True s' → s'.Covers :=
    fun {i s _} hi hc => hc.covers (hgood.ready i s hi) (show (w.on s).Covers from h i s hi)
  cases a with
  | connect i =>
    unfold World.act
    dsimp only
    split
    · intro j t hj
      by_cases hji : j = i
      · subst hji
        rw [show t = {} by simpa using hj.symm]
        exact .inr (.inl rfl)
      · exact h j t (by simpa [Function.update_of_ne hji] using hj)
    · exact h
  | frame i env frame =>
    unfold World.act
    dsimp only
    split
    · refine h.update fun s hi => hchain hi (Session.read_chain env frame (hgood.ready i s hi) fun _ hmsg => ?_)
      subst hmsg
      have htakes := ha s hi
      exact ⟨htakes.bounded, htakes.identity, htakes.logon⟩
    · exact h
  | send i env o =>
    exact h.update (f := fun s => (s.send env o, w.reading i)) fun s hi => hchain hi (Session.send_chain env o _)
  | logout i env reason =>
    exact h.update (f := fun s => (s.logout env reason, w.reading i))
      fun s hi => hchain hi (Session.logout_chain env reason _)
  | endOfSchedule i env =>
    exact h.update (f := fun s => (s.endOfSchedule env, w.reading i))
      fun s hi => hchain hi (Session.endOfSchedule_chain env _)
  | close i =>
    exact h.update (f := fun s => (s.close, w.reading i)) fun s hi => hchain hi (Session.close_chain _)
  | disconnect i =>
    unfold World.act
    dsimp only
    split
    · exact h
    intro j t hj
    by_cases hji : j = i
    · subst hji
      simp at hj
    · exact h j t (by simpa [Function.update_of_ne hji] using hj)

private theorem covering_after (moves : List Move) (h : Orderly moves) :
    (after moves).Good True ∧ (after moves).Covering := by
  induction moves using List.reverseRecOn with
  | nil => exact ⟨good_init, fun i s hi => absurd hi (by simp [after])⟩
  | append_singleton moves m ih =>
    obtain ⟨hgood, hcover⟩ := ih fun before m' rest heq =>
      h before m' (rest ++ [m]) (by rw [heq, append_assoc, cons_append])
    have hadmits := h moves m [] rfl
    have hact := hgood.act (actionOf m) hadmits
    have hcover' := hcover.act hgood (actionOf m) hadmits
    unfold after at *
    rw [foldl_append]
    cases m with
    | act => exact ⟨hact, hcover'⟩
    | kill _ _ resets => exact ⟨hact.kill _ resets, fun i s hi => absurd hi (by simp [move, boot])⟩

/-- On a session that is logged on, a message that reveals a gap which no earlier ResendRequest covers is answered by
a ResendRequest from the expected number on. -/
theorem gap_requested (moves : List Move) (h : Orderly moves) (i : Nat) (s : Session)
    (hi : (after moves).conns i = some s) (hopen : s.state.isOpen) (hclosed : s.closed = false) :
    (s.resendTo = 0 ∨ s.inSeqNum ≤ s.resendTo) ∧
      ∀ env msg seq, Session.Reveals env s msg seq → (after moves).Admits True (.frame i env (.ok msg)) →
        ¬ s.Asked → (∀ n, env.sends n = .queued) →
          ∃ sent, (((after moves).on s).dispatch env msg).1.out = s.out ++ sent ∧
            .resendRequest s.inSeqNum ∈ sent := by
  obtain ⟨hgood, hcover⟩ := covering_after moves h
  have hready := hgood.ready i s hi
  have hopen' : ((after moves).on s).state.isOpen := hopen
  have hcovers : s.resendTo = 0 ∨ s.Asked := (hcover i s hi).resolve_left (by simp [hclosed])
  refine ⟨hcovers.imp_right (·.1), fun env msg seq hmsg hadmits hasked hsends => ?_⟩
  have hto := hcovers.resolve_right hasked
  have hpos : 0 < s.inSeqNum := by
    obtain ⟨k, hk⟩ := isSome_iff_exists.1 (hready.opened trivial hopen')
    exact Int.lt_of_le_of_lt (hgood.tidy k).1.last.nonneg ((hgood.steady i s hi).low k hk)
  have htakes : s.Takes True msg := hadmits s hi
  have htakes' : ((after moves).on s).Takes True msg := ⟨htakes.bounded, htakes.identity, htakes.logon⟩
  have hreveals : Session.Reveals env ((after moves).on s) msg seq := ⟨hmsg.number, hmsg.early, hmsg.identity,
    hmsg.sender, hmsg.receiver, hmsg.counts, hmsg.stays, hmsg.room⟩
  obtain ⟨sent, hout, hmem⟩ := Session.dispatchOne_reveals hreveals hopen' hpos hto hsends
  obtain ⟨more, hmore⟩ := (Session.dispatch_chain env hready htakes').1.out_le
  refine ⟨sent ++ more, ?_, mem_append_left _ hmem⟩
  rw [← hmore, hout, append_assoc]

/-- A Logon with number 3 reveals that messages 1 and 2 are missing; they come, and message 3 after them. -/
def gapMoves : List Move :=
  [.act (.connect 0), .act (clientFrame "A" 3 [⟨98, text "0"⟩, ⟨108, text "30"⟩]), .act (clientFrame "D" 1 orderFields),
    .act (clientFrame "D" 2 orderFields), .act (clientFrame "0" 3 [])]

/-- The same, but message 3 has no CompIDs. -/
def anonymousMoves : List Move :=
  gapMoves.take 4 ++ [.act (.frame 0 sampleEnv (.ok ⟨[⟨8, text "FIX.4.4"⟩, ⟨35, text "0"⟩, ⟨34, itoa 3⟩,
    ⟨52, text "20240101-00:00:00"⟩]⟩))]

def admits (w : World) : Action → Bool
  | .frame i _ (.ok msg) =>
    match w.conns i with
    | none => true
    | some s => atoi (msg.get 34) ≠ some maxInt
        && ((validateIdentity msg).isNone || atoi (msg.get 34) ≠ some s.inSeqNum || s.resendTo ≠ s.inSeqNum)
        && (msg.msgType ≠ text "A" || s.regKey = none || s.regKey = some msg.sessionKey)
  | _ => true

def orderlyFrom (w : World) : List Move → Bool
  | [] => true
  | m :: moves => w.admits (actionOf m) && orderlyFrom (w.move m) moves

private theorem admits_true {w : World} {a : Action} (h : w.admits a) : w.Admits True a := by
  cases a with
  | frame _ _ frame =>
    rcases frame with _ | _
    · trivial
    intro s hs
    simp only [admits, hs, Bool.and_eq_true, Bool.or_eq_true, decide_eq_true_eq, isNone_iff_eq_none] at h
    obtain ⟨⟨hmax, hid⟩, hlogon⟩ := h
    refine ⟨hmax, fun _ hne hnum => ?_, fun _ htype _ hk => ?_⟩
    · exact hid.resolve_left fun h => h.elim hne (absurd hnum)
    rcases hlogon with (h | h) | h
    · exact absurd htype h
    · cases hk.symm.trans h
    · exact Option.some.inj (hk.symm.trans h)
  | _ => trivial

private theorem orderly_of_check {moves : List Move} (h : orderlyFrom {} moves) : Orderly moves := by
  have hfrom : ∀ (moves : List Move) (w : World), orderlyFrom w moves → ∀ before m rest,
      moves = before ++ m :: rest → (before.foldl move w).Admits True (actionOf m) := by
    intro moves
    induction moves with
    | nil => intro w _ before m rest heq; simp at heq
    | cons _ _ ih =>
      intro w h before m rest heq
      obtain ⟨hm, hmoves⟩ := Bool.and_eq_true_iff.1 h
      cases before with
      | nil =>
        cases heq
        exact admits_true hm
      | cons _ before =>
        cases heq
        exact ih _ hmoves before m rest rfl
  exact hfrom moves {} h

def firstSession (w : World) : Session := (w.conns 0).getD {}

private theorem conns_zero {w : World} (h : (w.conns 0).isSome) : w.conns 0 = some w.firstSession := by
  obtain ⟨_, hs⟩ := isSome_iff_exists.1 h
  rw [firstSession, hs]
  rfl

theorem gap_requested_sample :
    ∃ s : Session, (after gapMoves).conns 0 = some s ∧ (s.resendTo = 0 ∨ s.inSeqNum ≤ s.resendTo) ∧
      ∃ sent, (((after gapMoves).on s).dispatch sampleEnv (clientMessage "0" 6 [])).1.out = s.out ++ sent ∧
        .resendRequest s.inSeqNum ∈ sent := by
  have hconn := conns_zero (w := after gapMoves) (by decide +kernel)
  have horderly : Orderly gapMoves := orderly_of_check (by decide +kernel)
  have hsample := gap_requested gapMoves horderly 0 _ hconn (by decide +kernel) (by decide +kernel)
  refine ⟨_, hconn, hsample.1, hsample.2 sampleEnv (clientMessage "0" 6 []) 6 ?_ ?_ ?_ fun _ => rfl⟩
  · have hid : (validateIdentity (clientMessage "0" 6 [])).isNone := by decide +kernel
    exact ⟨by decide +kernel, by decide +kernel, isNone_iff_eq_none.1 hid, by decide +kernel, by decide +kernel,
      by decide +kernel, by decide +kernel, by decide +kernel⟩
  · exact admits_true (by decide +kernel)
  · intro hasked
    exact absurd hasked.1 (by decide +kernel)

/-- The anonymous message moves the expected number past `resendTo`, and the next gap is not asked for. -/
theorem gap_not_requested :
    ∃ s : Session, (after anonymousMoves).conns 0 = some s ∧ s.state = .loggedOn ∧ s.closed = false ∧
      s.resendTo = 3 ∧ s.inSeqNum = 4 ∧
      (((after anonymousMoves).on s).dispatch sampleEnv (clientMessage "0" 6 [])).1.out = s.out := by
  refine ⟨_, conns_zero (by decide +kernel), ?_, ?_, ?_, ?_, ?_⟩ <;> decide +kernel

end World

end Fxp.Fix
