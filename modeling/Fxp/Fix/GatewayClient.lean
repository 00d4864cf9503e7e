import Fxp.Fix.Codec
import Fxp.Lib.Machine
import Fxp.Recovery

/-!
# The connection of the bridge to the gateway

A client of the gateway queues messages on a channel from which the write loop takes them. When the connection fails,
the bridge closes the client and drains what is queued, so that it can reject it.
-/

namespace Fxp.Fix

open Machine List

/-- `proto.Marshal` and `proto.Unmarshal`: a message that was written can be read. -/
structure MessageCodec (M : Type) where
  marshal : M → Except String Bytes
  unmarshal : Bytes → Option M
  unmarshal_marshal : ∀ m raw, marshal m = .ok raw → unmarshal raw = some m

def sendBufferSize : Nat := 512

def makeFrame (raw : Bytes) : Bytes := toBeBytes raw.length ++ raw

/-- A call of `Send`: it has found the client open, or it has returned. -/
inductive SendStage
  | checked (frame : Bytes)
  | returned (err : Option String)
deriving DecidableEq

inductive ConnState
  | none
  | opened
  | closed
deriving DecidableEq

inductive ConnectStage
  | dialing
  | loggingOn
  | reading
  /-- The read loop has ended and calls `shutdown`. -/
  | ended
  | returned (err : Option String)
deriving DecidableEq

/-- Frames carry the number of the call that sent them, which nothing reads. -/
abbrev Queued := Nat × Bytes

inductive WriterStage
  | off
  | idle
  | writing (f : Queued)
  | failed (f : Queued)
  /-- The frame is where `DrainPending` finds it. -/
  | stored
  /-- In `shutdown`. -/
  | stopping
  | stopped
deriving DecidableEq

/-- The frame that the write loop holds. -/
def WriterStage.hand : WriterStage → List Queued
  | .writing f | .failed f => [f]
  | _ => []

/-- The `sync.Once` of `shutdown`. -/
inductive Once
  | fresh
  | running
  | finished
deriving DecidableEq

/-- What the bridge does when `Connect` has failed. -/
inductive BridgeStage
  | waiting
  | closing
  | draining
  | drained
deriving DecidableEq

structure GatewayClient (M : Type) where
  calls : List (M × SendStage) := []
  queue : List Queued := []
  done : Bool := false
  once : Once := .fresh
  userClosed : Bool := false
  conn : ConnState := .none
  connect : ConnectStage := .dialing
  writer : WriterStage := .off
  inflight : Option Queued := none
  bridge : BridgeStage := .waiting
  /-- The frames that were written completely. -/
  written : List Queued := []
  /-- The frames that `DrainPending` has taken. -/
  drained : List Queued := []

namespace GatewayClient

variable {M : Type} {lib : MessageCodec M}

/-- `Send` up to its first `select`. -/
def beginSend (lib : MessageCodec M) (m : M) (done : Bool) : SendStage :=
  match lib.marshal m with
  | .error e => .returned (some ("marshal FXP message: " ++ e))
  | .ok raw => if done then .returned (some "gateway connection closed") else .checked (makeFrame raw)

/-- The first part of `shutdown`, by whoever comes first. -/
def shutdown (s : GatewayClient M) : GatewayClient M :=
  if s.once = .fresh then { s with done := true, once := .running } else s

inductive Action (M : Type)
  | send (m : M)
  /-- The three ways through the second `select` of `Send`. -/
  | enqueue (i : Nat)
  | refuse (i : Nat)
  | overflow (i : Nat)
  | dialFails (e : String)
  | dials
  /-- Sending the logon fails, or reading its acknowledgement. -/
  | logonFails (ack : Bool) (e : String)
  | logsOn
  | readFails
  /-- The second part of `shutdown`. -/
  | closeConn
  | writerTakes
  | writes
  | writeFails
  | storesInflight
  | writerShutsDown
  | writerReturns
  | connectReturns
  /-- `Close` by the session, when the FIX client logs out or disconnects. -/
  | userCloses
  /-- `Close` by the bridge, and `DrainPending`. -/
  | bridgeCloses
  | drainInflight
  | drainNext
  | drainEnds

def step (lib : MessageCodec M) : Action M → GatewayClient M → Option (GatewayClient M)
  | .send m, s => some { s with calls := s.calls ++ [(m, beginSend lib m s.done)] }
  | .enqueue i, s =>
    match s.calls[i]? with
    | some (m, .checked frame) =>
      if s.queue.length < sendBufferSize then
        some { s with queue := s.queue ++ [(i, frame)], calls := s.calls.set i (m, .returned none) }
      else none
    | _ => none
  | .refuse i, s =>
    match s.calls[i]? with
    | some (m, .checked _) =>
      if s.done then some { s with calls := s.calls.set i (m, .returned (some "gateway connection closed")) } else none
    | _ => none
  | .overflow i, s =>
    match s.calls[i]? with
    | some (m, .checked _) =>
      -- the default case: no other is ready
      if s.done = false ∧ s.queue.length = sendBufferSize then
        some { s with calls := s.calls.set i (m, .returned (some "gateway send buffer full")) }
      else none
    | _ => none
  | .dialFails e, s =>
    match s.connect with
    | .dialing => some { s with connect := .returned (some ("dial gateway 127.0.0.1:8082: " ++ e)) }
    | _ => none
  | .dials, s =>
    match s.connect with
    | .dialing => some { s with connect := .loggingOn, conn := .opened }
    | _ => none
  | .logonFails ack e, s =>
    match s.connect with
    | .loggingOn =>
      some
        { s with
          connect := .returned (some ((if ack then "logon ack failed: " else "logon failed: ") ++ e))
          conn := .closed }
    | _ => none
  | .logsOn, s =>
    match s.connect with
    | .loggingOn => some { s with connect := .reading, writer := .idle }
    | _ => none
  | .readFails, s =>
    match s.connect with
    | .reading => some (shutdown { s with connect := .ended })
    | _ => none
  | .closeConn, s =>
    match s.once with
    | .running => some { s with once := .finished, conn := if s.conn = .opened then .closed else s.conn }
    | _ => none
  | .writerTakes, s =>
    match s.writer, s.queue with
    | .idle, f :: rest => some { s with writer := .writing f, queue := rest }
    | _, _ => none
  | .writes, s =>
    match s.writer with
    | .writing f => if s.conn = .opened then some { s with writer := .idle, written := s.written ++ [f] } else none
    | _ => none
  | .writeFails, s =>
    match s.writer with
    | .writing f => some { s with writer := .failed f }
    | _ => none
  | .storesInflight, s =>
    match s.writer with
    | .failed f => some { s with writer := .stored, inflight := some f }
    | _ => none
  | .writerShutsDown, s =>
    match s.writer with
    | .stored => some (shutdown { s with writer := .stopping })
    | _ => none
  | .writerReturns, s =>
    match s.writer with
    | .idle => if s.done then some { s with writer := .stopped } else none
    | .stopping => if s.once = .finished then some { s with writer := .stopped } else none
    | _ => none
  | .connectReturns, s =>
    match s.connect, s.writer with
    | .ended, .stopped =>
      if s.once = .finished then
        some { s with connect := .returned (if s.userClosed then none else some "gateway disconnected") }
      else none
    | _, _ => none
  | .userCloses, s => some (shutdown { s with userClosed := true })
  | .bridgeCloses, s =>
    match s.connect, s.bridge with
    | .returned (some _), .waiting => some (shutdown { s with userClosed := true, bridge := .closing })
    | _, _ => none
  | .drainInflight, s =>
    match s.bridge with
    | .closing =>
      if s.once = .finished then
        some { s with bridge := .draining, inflight := none, drained := s.drained ++ s.inflight.toList }
      else none
    | _ => none
  | .drainNext, s =>
    match s.bridge, s.queue with
    | .draining, f :: rest => some { s with queue := rest, drained := s.drained ++ [f] }
    | _, _ => none
  | .drainEnds, s =>
    match s.bridge, s.queue with
    | .draining, [] => some { s with bridge := .drained }
    | _, _ => none

def pending (lib : MessageCodec M) (s : GatewayClient M) : List (Nat × M) :=
  s.drained.filterMap fun f => (lib.unmarshal (f.2.drop 4)).map fun m => (f.1, m)

/-- The states of every interleaving whose steps meet `ok`. -/
abbrev Reached (lib : MessageCodec M) (ok : Action M → GatewayClient M → Prop) : GatewayClient M → Prop :=
    Reach (step lib) ok {}

/-- A call of `Send` queues its message before `DrainPending` has found the channel empty. -/
def queuesInTime : Action M → GatewayClient M → Prop
  | .enqueue _, s => s.bridge ≠ .drained
  | _, _ => True

instance : (a : Action M) → (s : GatewayClient M) → Decidable (queuesInTime a s)
  | .enqueue _, s => inferInstanceAs (Decidable (s.bridge ≠ .drained))
  | .send _, _ | .refuse _, _ | .overflow _, _ | .dialFails _, _ | .dials, _ | .logonFails _ _, _ | .logsOn, _
  | .readFails, _ | .closeConn, _ | .writerTakes, _ | .writes, _ | .writeFails, _ | .storesInflight, _
  | .writerShutsDown, _ | .writerReturns, _ | .connectReturns, _ | .userCloses, _ | .bridgeCloses, _
  | .drainInflight, _ | .drainNext, _ | .drainEnds, _ =>
    .isTrue trivial

def places (s : GatewayClient M) : List Queued :=
  s.queue ++ s.writer.hand ++ s.inflight.toList ++ s.written ++ s.drained

variable {a : Action M} {s s' : GatewayClient M} {ok : Action M → GatewayClient M → Prop}

/-- Which stages the goroutines can be in at the same time. -/
structure Stages (s : GatewayClient M) : Prop where
  early : s.connect = .dialing ∨ s.connect = .loggingOn → s.writer = .off
  late : ∀ e, s.connect = .returned e → s.writer = .off ∨ s.writer = .stopped
  bridge : s.bridge ≠ .waiting → ∃ e, s.connect = .returned e
  inflight : s.bridge = .draining ∨ s.bridge = .drained → s.inflight = none
  /-- A write fails only once. -/
  first : s.inflight ≠ none → s.writer = .stored ∨ s.writer = .stopping ∨ s.writer = .stopped

private theorem shutdown_eq (s : GatewayClient M) : ∃ done once, shutdown s = { s with done, once } := by
  unfold shutdown
  split <;> exact ⟨_, _, rfl⟩

theorem Stages.shutdown (h : Stages s) : Stages (shutdown s) := by
  obtain ⟨_, _, hs⟩ := shutdown_eq s
  rw [hs]
  exact ⟨h.early, h.late, h.bridge, h.inflight, h.first⟩

theorem Stages.waiting (h : Stages s) (hconnect : ∀ e, s.connect ≠ .returned e) : s.bridge = .waiting := by
  by_contra hne
  obtain ⟨e, he⟩ := h.bridge hne
  exact hconnect e he

theorem Stages.of_writer (h : Stages s) {w} (hwriter : s.writer = w) (hoff : w ≠ .off) (hstopped : w ≠ .stopped)
    (hconnect : s'.connect = s.connect) (hbridge : s'.bridge = s.bridge)
    (hfirst : s'.inflight ≠ none → s'.writer = .stored ∨ s'.writer = .stopping ∨ s'.writer = .stopped) : Stages s' := by
  subst hwriter
  have hreturned : ∀ e, s.connect ≠ .returned e := fun e he => (h.late e he).elim hoff hstopped
  have hwaiting := h.waiting hreturned
  refine ⟨fun hc => absurd (h.early (hconnect ▸ hc)) hoff, fun e he => absurd (hconnect ▸ he) (hreturned e),
    fun hne => ?_, fun hd => ?_, hfirst⟩
  · exact absurd (hbridge.trans hwaiting) hne
  · rw [hbridge, hwaiting] at hd
    rcases hd with hd | hd <;> cases hd

/-- What a step does to the calls of `Send`, and to the frames. -/
inductive Effect (lib : MessageCodec M) (s s' : GatewayClient M) : Prop
  | begins (m : M) (hplaces : s'.places = s.places) (hcalls : s'.calls = s.calls ++ [(m, beginSend lib m s.done)])
  | queues (i : Nat) (m : M) (frame : Bytes) (hcall : s.calls[i]? = some (m, .checked frame))
    (hplaces : s'.places.Perm ((i, frame) :: s.places)) (hcalls : s'.calls = s.calls.set i (m, .returned none))
  | refuses (i : Nat) (m : M) (frame : Bytes) (err : String) (hcall : s.calls[i]? = some (m, .checked frame))
    (hplaces : s'.places = s.places) (hcalls : s'.calls = s.calls.set i (m, .returned (some err)))
  | moves (hplaces : s'.places.Perm s.places) (hcalls : s'.calls = s.calls)

theorem Effect.of_eq (hplaces : s'.places = s.places) (hcalls : s'.calls = s.calls) : Effect lib s s' :=
  .moves (hplaces ▸ List.Perm.refl _) hcalls

theorem Effect.shutdown (s : GatewayClient M) (h : Effect lib s s') : Effect lib s (shutdown s') := by
  obtain ⟨_, _, hs⟩ := shutdown_eq s'
  rw [hs]
  cases h with
  | begins m hplaces hcalls => exact .begins m hplaces hcalls
  | queues i m frame hcall hplaces hcalls => exact .queues i m frame hcall hplaces hcalls
  | refuses i m frame err hcall hplaces hcalls => exact .refuses i m frame err hcall hplaces hcalls
  | moves hplaces hcalls => exact .moves hplaces hcalls

private theorem step_spec (h : Stages s) (hs : step lib a s = some s') : Stages s' ∧ Effect lib s s' := by
  have hkept : ∀ {t : GatewayClient M}, t.connect = s.connect → t.writer = s.writer → t.bridge = s.bridge →
      t.inflight = s.inflight → Stages t := by
    intro t hconnect hwriter hbridge hinflight
    refine ⟨?_, ?_, ?_, ?_, ?_⟩
    · rw [hconnect, hwriter]
      exact h.early
    · rw [hconnect, hwriter]
      exact h.late
    · rw [hbridge, hconnect]
      exact h.bridge
    · rw [hbridge, hinflight]
      exact h.inflight
    · rw [hinflight, hwriter]
      exact h.first
  -- no write has failed before
  have hnone : ∀ {w}, s.writer = w → w ≠ .stored → w ≠ .stopping → w ≠ .stopped → s.inflight = none := by
    rintro _ rfl hstored hstopping hstopped
    by_contra hne
    rcases h.first hne with hw | hw | hw
    · exact hstored hw
    · exact hstopping hw
    · exact hstopped hw
  unfold GatewayClient.step at hs
  -- what is left are the branches in which there is a step
  split at hs <;> first | cases hs | (split at hs <;> first | cases hs | (split at hs <;> cases hs))
  -- `Send`
  · exact ⟨hkept rfl rfl rfl rfl, .begins _ rfl rfl⟩
  · rename_i i _ m frame hcall _
    refine ⟨hkept rfl rfl rfl rfl, .queues i m frame hcall (perm_iff_count.mpr fun x => ?_) rfl⟩
    simp only [places, count_append, count_cons, count_nil]
    omega
  · rename_i i _ m frame hcall _
    exact ⟨hkept rfl rfl rfl rfl, .refuses i m frame _ hcall rfl rfl⟩
  · rename_i i _ m frame hcall _
    exact ⟨hkept rfl rfl rfl rfl, .refuses i m frame _ hcall rfl rfl⟩
  -- `Connect` up to the loops
  · rename_i hconnect
    exact ⟨⟨by simp, fun _ _ => .inl (h.early (.inl hconnect)), fun _ => ⟨_, rfl⟩, h.inflight, h.first⟩, .of_eq rfl rfl⟩
  · rename_i hconnect
    have hwaiting := h.waiting (by simp [hconnect])
    exact ⟨⟨fun _ => h.early (.inl hconnect), nofun, fun hne => absurd hwaiting hne, h.inflight, h.first⟩,
      .of_eq rfl rfl⟩
  · rename_i hconnect
    exact ⟨⟨by simp, fun _ _ => .inl (h.early (.inr hconnect)), fun _ => ⟨_, rfl⟩, h.inflight, h.first⟩, .of_eq rfl rfl⟩
  · rename_i hconnect
    have hwaiting := h.waiting (by simp [hconnect])
    have hoff := h.early (.inr hconnect)
    refine ⟨⟨by simp, nofun, fun hne => absurd hwaiting hne, h.inflight, fun hne => ?_⟩, .of_eq ?_ rfl⟩
    · exact absurd (hnone hoff nofun nofun nofun) hne
    · simp only [places, hoff]
      rfl
  · rename_i hconnect
    have hwaiting := h.waiting (by simp [hconnect])
    exact ⟨.shutdown ⟨by simp, nofun, fun hne => absurd hwaiting hne, h.inflight, h.first⟩,
      .shutdown s (.of_eq rfl rfl)⟩
  · exact ⟨hkept rfl rfl rfl rfl, .of_eq rfl rfl⟩
  -- the write loop
  · rename_i hwriter hqueue
    have hnone := hnone hwriter nofun nofun nofun
    refine ⟨h.of_writer hwriter nofun nofun rfl rfl fun hne => absurd hnone hne,
      .moves (perm_iff_count.mpr fun x => ?_) rfl⟩
    simp only [places, hwriter, hqueue, WriterStage.hand, count_append, count_cons, count_nil]
    omega
  · rename_i hwriter _
    have hnone := hnone hwriter nofun nofun nofun
    refine ⟨h.of_writer hwriter nofun nofun rfl rfl fun hne => absurd hnone hne,
      .moves (perm_iff_count.mpr fun x => ?_) rfl⟩
    simp only [places, hwriter, WriterStage.hand, count_append, count_cons, count_nil]
    omega
  · rename_i hwriter
    have hnone := hnone hwriter nofun nofun nofun
    refine ⟨h.of_writer hwriter nofun nofun rfl rfl fun hne => absurd hnone hne, .of_eq ?_ rfl⟩
    simp only [places, hwriter]
    rfl
  · rename_i hwriter
    have hnone := hnone hwriter nofun nofun nofun
    refine ⟨h.of_writer hwriter nofun nofun rfl rfl fun _ => .inl rfl,
      .moves (perm_iff_count.mpr fun x => ?_) rfl⟩
    simp only [places, hwriter, hnone, WriterStage.hand, count_append, Option.toList, count_cons, count_nil]
    omega
  · rename_i hwriter
    refine ⟨.shutdown (h.of_writer hwriter nofun nofun rfl rfl fun _ => .inr (.inl rfl)),
      .shutdown s (.of_eq ?_ rfl)⟩
    simp only [places, hwriter]
    rfl
  · rename_i hwriter _
    refine ⟨h.of_writer hwriter nofun nofun rfl rfl fun _ => .inr (.inr rfl), .of_eq ?_ rfl⟩
    simp only [places, hwriter]
    rfl
  · rename_i hwriter _
    refine ⟨h.of_writer hwriter nofun nofun rfl rfl fun _ => .inr (.inr rfl), .of_eq ?_ rfl⟩
    simp only [places, hwriter]
    rfl
  -- the end of `Connect`, and the bridge
  · rename_i hwriter _
    exact ⟨⟨by simp, fun _ _ => .inr hwriter, fun _ => ⟨_, rfl⟩, h.inflight, h.first⟩, .of_eq rfl rfl⟩
  · exact ⟨.shutdown (hkept rfl rfl rfl rfl), .shutdown s (.of_eq rfl rfl)⟩
  · rename_i hconnect _
    exact ⟨.shutdown ⟨h.early, h.late, fun _ => ⟨_, hconnect⟩, by simp, h.first⟩, .shutdown s (.of_eq rfl rfl)⟩
  · rename_i hbridge _
    have hconnect := h.bridge (by simp [hbridge])
    refine ⟨⟨h.early, h.late, fun _ => hconnect, fun _ => rfl, fun hne => absurd rfl hne⟩,
      .moves (perm_iff_count.mpr fun x => ?_) rfl⟩
    simp only [places, count_append, Option.toList, count_nil]
    omega
  · rename_i hqueue
    refine ⟨hkept rfl rfl rfl rfl, .moves (perm_iff_count.mpr fun x => ?_) rfl⟩
    simp only [places, hqueue, count_append, count_cons, count_nil]
    omega
  · rename_i hbridge _
    exact ⟨⟨h.early, h.late, fun _ => h.bridge (by simp [hbridge]), fun _ => h.inflight (.inl hbridge), h.first⟩,
      .of_eq rfl rfl⟩

def Sent (lib : MessageCodec M) (s : GatewayClient M) (f : Queued) : Prop :=
  ∃ m raw, s.calls[f.1]? = some (m, .returned none) ∧ lib.marshal m = .ok raw ∧ f.2 = makeFrame raw

structure Inv (lib : MessageCodec M) (s : GatewayClient M) : Prop where
  stages : Stages s
  nodup : (s.places.map Prod.fst).Nodup
  sent : ∀ f, f ∈ s.places ↔ Sent lib s f
  checked : ∀ (i : Nat) (m : M) (frame : Bytes), s.calls[i]? = some (m, .checked frame) →
    ∃ raw, lib.marshal m = .ok raw ∧ frame = makeFrame raw
  marshalled : ∀ (i : Nat) (m : M), s.calls[i]? = some (m, .returned none) → ∃ raw, lib.marshal m = .ok raw

theorem Inv.new : Inv lib {} where
  stages := ⟨fun _ => rfl, nofun, fun h => absurd rfl h, fun _ => rfl, fun h => absurd rfl h⟩
  nodup := nodup_nil
  sent f := by simp [places, WriterStage.hand, Sent]
  checked i m frame h := by simp at h
  marshalled i m h := by simp at h

private theorem beginSend_cases (lib : MessageCodec M) (m : M) (done : Bool) :
    (∃ raw, lib.marshal m = .ok raw ∧ beginSend lib m done = .checked (makeFrame raw)) ∨
      ∃ err, beginSend lib m done = .returned (some err) := by
  unfold beginSend
  split
  · exact .inr ⟨_, rfl⟩
  rename_i raw hraw
  split
  · exact .inr ⟨_, rfl⟩
  · exact .inl ⟨raw, hraw, rfl⟩

/-- Of the calls behind a step that only begins one or lets one fail, the same have returned without an error. -/
theorem Inv.of_calls (h : Inv lib s) (hstages : Stages s') (hplaces : s'.places.Perm s.places)
    (hreturned : ∀ (i : Nat) (m : M), s'.calls[i]? = some (m, .returned none) ↔ s.calls[i]? = some (m, .returned none))
    (hchecked : ∀ (i : Nat) (m : M) (frame : Bytes), s'.calls[i]? = some (m, .checked frame) →
      ∃ raw, lib.marshal m = .ok raw ∧ frame = makeFrame raw) :
    Inv lib s' where
  stages := hstages
  nodup := (hplaces.map _).nodup_iff.mpr h.nodup
  sent f := by
    rw [hplaces.mem_iff, h.sent, Sent, Sent]
    simp only [hreturned]
  checked := hchecked
  marshalled i m hc := h.marshalled i m ((hreturned i m).mp hc)

theorem Inv.step (h : Inv lib s) (hs : step lib a s = some s') : Inv lib s' := by
  obtain ⟨hstages, heffect⟩ := step_spec h.stages hs
  cases heffect with
  | begins m hplaces hcalls =>
    have hnew : ∀ (i : Nat) c, s'.calls[i]? = some c → s.calls[i]? = some c ∨ c = (m, beginSend lib m s.done) := by
      intro i c hc
      rw [hcalls, getElem?_append] at hc
      split at hc
      · exact .inl hc
      rw [getElem?_singleton] at hc
      split at hc
      · exact .inr (Option.some.inj hc).symm
      · cases hc
    refine h.of_calls hstages (hplaces ▸ .refl _) (fun i m' => ⟨fun hc => ?_, fun hc => ?_⟩) fun i m' frame hc => ?_
    · rcases hnew i _ hc with hc | hc
      · exact hc
      · rcases beginSend_cases lib m s.done with ⟨raw, -, hstage⟩ | ⟨err, hstage⟩ <;> rw [hstage] at hc <;> cases hc
    · obtain ⟨hlt, -⟩ := List.getElem?_eq_some_iff.mp hc
      rw [hcalls, getElem?_append_left hlt, hc]
    rcases hnew i _ hc with hc | hc
    · exact h.checked i m' frame hc
    rcases beginSend_cases lib m s.done with ⟨raw, hraw, hstage⟩ | ⟨_, hstage⟩
    · rw [hstage] at hc
      cases hc
      exact ⟨raw, hraw, rfl⟩
    · rw [hstage] at hc
      cases hc
  | queues i m frame hcall hplaces hcalls =>
    obtain ⟨raw, hraw, rfl⟩ := h.checked i m frame hcall
    obtain ⟨hlt, -⟩ := List.getElem?_eq_some_iff.mp hcall
    have hother : ∀ {j : Nat}, j ≠ i → s'.calls[j]? = s.calls[j]? := fun hj => by
      rw [hcalls, getElem?_set_ne (Ne.symm hj)]
    have hself : s'.calls[i]? = some (m, .returned none) := by rw [hcalls, getElem?_set_self hlt]
    have hfresh : i ∉ s.places.map Prod.fst := by
      intro hmem
      obtain ⟨⟨_, _⟩, hf, rfl⟩ := mem_map.mp hmem
      obtain ⟨_, -, hreturned, -⟩ := (h.sent _).mp hf
      cases hcall.symm.trans hreturned
    refine ⟨hstages, ?_, fun f => ?_, fun j m' frame hc => ?_, fun j m' hc => ?_⟩
    · rw [(hplaces.map _).nodup_iff, map_cons, nodup_cons]
      exact ⟨hfresh, h.nodup⟩
    · rw [hplaces.mem_iff, mem_cons, h.sent]
      obtain ⟨j, _⟩ := f
      by_cases hj : j = i
      · subst hj
        constructor
        · rintro (heq | ⟨_, _, hreturned, -⟩)
          · cases heq
            exact ⟨m, raw, hself, hraw, rfl⟩
          · cases hcall.symm.trans hreturned
        · rintro ⟨_, _, hreturned, hraw', hb⟩
          cases hself.symm.trans hreturned
          cases hraw.symm.trans hraw'
          exact .inl (Prod.ext rfl hb)
      · rw [Sent, Sent, hother hj]
        refine ⟨fun hf => hf.resolve_left fun heq => hj (congrArg Prod.fst heq), .inr⟩
    · by_cases hj : j = i
      · subst hj
        cases hself.symm.trans hc
      · rw [hother hj] at hc
        exact h.checked j m' frame hc
    · by_cases hj : j = i
      · subst hj
        cases hself.symm.trans hc
        exact ⟨raw, hraw⟩
      · rw [hother hj] at hc
        exact h.marshalled j m' hc
  | refuses i m _ err hcall hplaces hcalls =>
    obtain ⟨hlt, -⟩ := List.getElem?_eq_some_iff.mp hcall
    have hcase : ∀ j : Nat, j = i ∧ s'.calls[j]? = some (m, .returned (some err)) ∨ j ≠ i ∧
        s'.calls[j]? = s.calls[j]? := by
      intro j
      by_cases hj : j = i
      · rw [hj, hcalls, getElem?_set_self hlt]
        exact .inl ⟨rfl, rfl⟩
      · rw [hcalls, getElem?_set_ne (Ne.symm hj)]
        exact .inr ⟨hj, rfl⟩
    refine h.of_calls hstages (hplaces ▸ .refl _) (fun j m' => ?_) fun j m' frame' hc => ?_
    · rcases hcase j with ⟨rfl, hj⟩ | ⟨-, hj⟩
      · rw [hj, hcall]
        simp
      · rw [hj]
    · rcases hcase j with ⟨rfl, hj⟩ | ⟨-, hj⟩
      · cases hj.symm.trans hc
      · rw [hj] at hc
        exact h.checked j m' frame' hc
  | moves hplaces hcalls =>
    refine h.of_calls hstages hplaces (fun i m => by rw [hcalls]) fun i m frame hc => ?_
    rw [hcalls] at hc
    exact h.checked i m frame hc

private theorem queue_of_drained (hs : Reached lib queuesInTime s) : s.bridge = .drained → s.queue = [] := by
  refine Reach.invariant (I := fun s => s.bridge = .drained → s.queue = []) hs nofun fun {a s s'} h hok hs => ?_
  cases a
  all_goals
    simp only [GatewayClient.step] at hs
    grind [shutdown, queuesInTime]

/-- If no call queues its message behind the last receive of `DrainPending`, every message that `Send` took was
written or is returned by `DrainPending`, and not both. -/
theorem sent_written_xor_drained (hs : Reached lib queuesInTime s) (hdrained : s.bridge = .drained) {i : Nat} {m : M}
    (hsent : s.calls[i]? = some (m, .returned none)) :
    Xor (∃ raw, lib.marshal m = .ok raw ∧ (i, makeFrame raw) ∈ s.written) ((i, m) ∈ s.pending lib) := by
  have hinv : Inv lib s := Reach.invariant hs .new fun h _ hs => h.step hs
  have hqueue := queue_of_drained hs hdrained
  have hinflight := hinv.stages.inflight (.inr hdrained)
  have hhand : s.writer.hand = [] := by
    obtain ⟨e, hconnect⟩ := hinv.stages.bridge (by rw [hdrained]; simp)
    rcases hinv.stages.late e hconnect with hwriter | hwriter <;> rw [hwriter] <;> rfl
  -- nothing is left but what was written and what was drained
  have hplaces : s.places = s.written ++ s.drained := by
    simp only [places, hqueue, hinflight, hhand, Option.toList, nil_append]
  have hnodup := hinv.nodup
  rw [hplaces, map_append, nodup_append] at hnodup
  obtain ⟨raw, hraw⟩ := hinv.marshalled i m hsent
  have hmem : (i, makeFrame raw) ∈ s.written ∨ (i, makeFrame raw) ∈ s.drained := by
    rw [← mem_append, ← hplaces]
    exact (hinv.sent _).mpr ⟨m, raw, hsent, hraw, rfl⟩
  have hboth : ∀ f g, (i, f) ∈ s.written → (i, g) ∈ s.drained → False := fun f g hf hg =>
    hnodup.2.2 i (mem_map.mpr ⟨_, hf, rfl⟩) i (mem_map.mpr ⟨_, hg, rfl⟩) rfl
  have hpending : (i, m) ∈ s.pending lib → ∃ f, (i, f) ∈ s.drained := by
    intro h
    obtain ⟨⟨_, f⟩, hf, heq⟩ := mem_filterMap.mp h
    obtain ⟨_, -, heq⟩ := Option.map_eq_some_iff.mp heq
    cases heq
    exact ⟨f, hf⟩
  rcases hmem with hmem | hmem
  · refine .inl ⟨⟨raw, hraw, hmem⟩, fun h => ?_⟩
    obtain ⟨_, hf⟩ := hpending h
    exact hboth _ _ hmem hf
  refine .inr ⟨mem_filterMap.mpr ⟨_, hmem, ?_⟩, ?_⟩
  · have hdrop : (makeFrame raw).drop 4 = raw := drop_left' (toBeBytes_length _)
    simp only [hdrop, lib.unmarshal_marshal m raw hraw, Option.map_some]
  · rintro ⟨_, -, hwritten⟩
    exact hboth _ _ hwritten hmem

/-- Cancel requests with the id of an order, in the bytes of protobuf; the lengths take one byte each. -/
def cancelCodec : MessageCodec Bytes where
  marshal id :=
    if id.length < 126 then .ok ([58, .ofNat (id.length + 2), 18, .ofNat id.length] ++ id) else .error "too long"
  unmarshal raw := some (raw.drop 4)
  unmarshal_marshal m raw h := by
    split at h <;> cases h
    rfl

/-- The connection fails while one message is written and another one is queued. -/
theorem sent_written_xor_drained_failing : ∃ s : GatewayClient Bytes, Reached cancelCodec queuesInTime s ∧
    s.bridge = .drained ∧
    s.calls = [(text "A", .returned none), (text "B", .returned none), (text "C", .returned none)] ∧
    Xor (∃ raw, cancelCodec.marshal (text "B") = .ok raw ∧ (1, makeFrame raw) ∈ s.written)
    ((1, text "B") ∈ s.pending cancelCodec) := by
  have hstart : Reached cancelCodec queuesInTime {} := .refl
  obtain ⟨s, hs, hp⟩ := hstart.of_exec
    [.send (text "A"), .enqueue 0, .dials, .logsOn, .writerTakes, .writes, .send (text "B"), .send (text "C"),
      .enqueue 1, .writerTakes, .readFails, .enqueue 2, .closeConn, .writeFails, .storesInflight, .writerShutsDown,
      .writerReturns, .connectReturns, .bridgeCloses, .drainInflight, .drainNext, .drainEnds]
    (P := fun s => s.bridge = .drained ∧
      s.calls = [(text "A", .returned none), (text "B", .returned none), (text "C", .returned none)])
    (by decide +kernel)
  obtain ⟨hdrained, hcalls⟩ := of_decide_eq_true hp
  exact ⟨s, hs, hdrained, hcalls, sent_written_xor_drained hs hdrained (by rw [hcalls]; rfl)⟩

/-- `Send` has found the client open when the connection fails; it queues the message when everything is drained. -/
theorem sent_behind_drain_lost : ∃ s : GatewayClient Bytes, Reached cancelCodec (fun _ _ => True) s ∧
    s.bridge = .drained ∧ s.calls = [(text "A", .returned none)] ∧ s.written = [] ∧ s.pending cancelCodec = [] := by
  have hstart : Reached cancelCodec (fun _ _ => True) {} := .refl
  obtain ⟨s, hs, hp⟩ := hstart.of_exec
    [.send (text "A"), .dialFails "refused", .bridgeCloses, .closeConn, .drainInflight, .drainEnds, .enqueue 0]
    (P := fun s => s.bridge = .drained ∧ s.calls = [(text "A", .returned none)] ∧ s.written = [] ∧
      s.pending cancelCodec = []) (by decide +kernel)
  exact ⟨s, hs, of_decide_eq_true hp⟩

end GatewayClient

end Fxp.Fix
