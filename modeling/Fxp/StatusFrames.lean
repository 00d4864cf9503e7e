import Fxp.Lib.Protobuf
import Fxp.Service

/-!
# Order status in frames

`send_order_status` sends reports in frames of at most 64 reports and `2 ^ 20` bytes. One message is used for all of
them: a report that does not fit any more is taken out again, the message is sent without it and starts anew.
-/

namespace Fxp

open Protobuf List

structure OrderStatusResponse where
  requestId : String
  sender : String
  reports : List Report
  rejectReason : String
  complete : Bool
  totalReports : UInt32

def maxStatusFrameBytes : Nat := 1048576

section

variable (encode : Report → List UInt8)

/-- The size of the `FxpMessage` around a response; `encode` is the encoding of a report. -/
def OrderStatusResponse.encodedLen (m : OrderStatusResponse) : Nat :=
  (delimited 21 (string 1 m.requestId ++ string 2 m.sender ++ m.reports.flatMap (fun r => delimited 3 (encode r)) ++
    string 4 m.rejectReason ++ int 5 m.complete.toNat ++ int 6 m.totalReports.toNat)).length

/-- The loop over the reports: the frames that are sent in it, and the message that is left. -/
def sendReports : List Report → OrderStatusResponse → List OrderStatusResponse × OrderStatusResponse
  | [], m => ([], m)
  | report :: reports, m =>
    let pushed := { m with reports := m.reports ++ [report] }
    if 64 < pushed.reports.length ∨ maxStatusFrameBytes < pushed.encodedLen encode then
      let sent := if m.reports = [] then [] else [{ m with complete := false }]
      let m := if m.reports = [] then m else { m with reports := [], complete := true }
      let alone := { m with reports := m.reports ++ [report] }
      if maxStatusFrameBytes < alone.encodedLen encode then
        (sent, { alone with
          reports := [], totalReports := 0, rejectReason := "status report exceeds frame limit" })
      else
        let (frames, last) := sendReports reports alone
        (sent ++ frames, last)
    else sendReports reports pushed

def firstResponse (requestId sender reject : String) (reports : List Report) : OrderStatusResponse :=
  { requestId, sender, reports := [], rejectReason := reject, complete := true
    totalReports := .ofNat reports.length }

/-- The frames that are sent, and whether the connection is signalled to close. -/
def sendOrderStatus (requestId sender reject : String) (reports : List Report) : List OrderStatusResponse × Bool :=
  let (frames, last) := sendReports encode reports (firstResponse requestId sender reject reports)
  if last.encodedLen encode ≤ maxStatusFrameBytes then (frames ++ [last], false) else (frames, true)

end

variable {encode : Report → List UInt8} {m : OrderStatusResponse} {report : Report}

/-- A frame with nothing but this report. -/
def OrderStatusResponse.alone (m : OrderStatusResponse) (report : Report) : OrderStatusResponse :=
  { m with reports := [report], complete := true }

private theorem encodedLen_incomplete (m : OrderStatusResponse) :
    ({ m with complete := false } : OrderStatusResponse).encodedLen encode ≤ m.encodedLen encode := by
  apply delimited_length_mono
  simp [int]

private theorem encodedLen_alone (hm : m.complete = true) : (m.alone report).encodedLen encode ≤
    ({ m with reports := m.reports ++ [report] } : OrderStatusResponse).encodedLen encode := by
  apply delimited_length_mono
  simp [OrderStatusResponse.alone, hm]

/-- A message that may be sent, if it has reports. -/
structure Sendable (encode : Report → List UInt8) (m : OrderStatusResponse) : Prop where
  complete : m.complete = true
  count : m.reports.length ≤ 64
  size : m.reports ≠ [] → m.encodedLen encode ≤ maxStatusFrameBytes

theorem Sendable.single (h : (m.alone report).encodedLen encode ≤ maxStatusFrameBytes) :
    Sendable encode (m.alone report) :=
  ⟨rfl, by simp [OrderStatusResponse.alone], fun _ => h⟩

/-- A frame that is sent before the last one. -/
structure Earlier (encode : Report → List UInt8) (total : UInt32) (f : OrderStatusResponse) : Prop where
  complete : f.complete = false
  total : f.totalReports = total
  fits : f.encodedLen encode ≤ maxStatusFrameBytes ∧ f.reports.length ≤ 64

/-- What the loop sends and leaves: all reports if each of them fits into a frame, and else those before. -/
theorem sendReports_spec (reports : List Report) (hm : Sendable encode m) :
    ∃ frames last, sendReports encode reports m = (frames, last) ∧
      (∀ f ∈ frames, Earlier encode m.totalReports f) ∧
      (((∀ r ∈ reports, (m.alone r).encodedLen encode ≤ maxStatusFrameBytes) ∧ Sendable encode last ∧
          last.totalReports = m.totalReports ∧ frames.flatMap (·.reports) ++ last.reports = m.reports ++ reports ∧
          (last.reports = [] → m.reports = [] ∧ reports = [])) ∨
        ((∃ r ∈ reports, maxStatusFrameBytes < (m.alone r).encodedLen encode) ∧ last.complete = true ∧
          last.reports = [] ∧ last.rejectReason = "status report exceeds frame limit" ∧
          frames.flatMap (·.reports) <+: m.reports ++ reports)) := by
  induction reports generalizing m with
  | nil => exact ⟨[], m, rfl, by simp, .inl ⟨by simp, hm, rfl, by simp, fun h => ⟨h, rfl⟩⟩⟩
  | cons report reports ih =>
    rw [sendReports]
    simp only
    split
    · -- the message is sent as it was, and the report starts the next one
      generalize hsent : (if m.reports = [] then [] else [{ m with complete := false }]) = sent
      generalize hm' : (if m.reports = [] then m else { m with reports := [], complete := true }) = m'
      have hreports : sent.flatMap (·.reports) = m.reports := by
        rw [← hsent]
        split <;> simp [*]
      have hframes : ∀ f ∈ sent, Earlier encode m.totalReports f := by
        rw [← hsent]
        split
        · simp
        rename_i hne
        intro f hf
        rw [mem_singleton.mp hf]
        exact ⟨rfl, rfl, Nat.le_trans (encodedLen_incomplete m) (hm.size hne), hm.count⟩
      have halone : { m' with reports := m'.reports ++ [report] } = m.alone report := by
        have := hm.complete
        rw [← hm']
        split <;> simp [OrderStatusResponse.alone, *]
      rw [halone]
      split
      · rename_i hlarge
        have hcomplete : m'.complete = true := congrArg OrderStatusResponse.complete halone
        exact ⟨sent, _, rfl, hframes, .inr ⟨⟨report, mem_cons_self, hlarge⟩, hcomplete, rfl, rfl, by simp [hreports]⟩⟩
      rename_i hfits
      rw [Nat.not_lt] at hfits
      obtain ⟨frames, last, heq, hframes', hlast⟩ := ih (Sendable.single hfits)
      rw [heq]
      refine ⟨sent ++ frames, last, rfl, forall_mem_append.mpr ⟨hframes, hframes'⟩, ?_⟩
      rw [flatMap_append, hreports, append_assoc]
      refine hlast.imp ?_ ?_
      · rintro ⟨hall, hlast, htotal, hcat, hnil⟩
        exact ⟨forall_mem_cons.mpr ⟨hfits, hall⟩, hlast, htotal, congrArg _ hcat, fun h => nomatch (hnil h).1⟩
      · rintro ⟨⟨r, hr, hlarge⟩, hcomplete, hnil, hreason, hfront⟩
        exact ⟨⟨r, mem_cons_of_mem _ hr, hlarge⟩, hcomplete, hnil, hreason, (prefix_append_right_inj _).mpr hfront⟩
    · rename_i hroom
      rw [not_or, Nat.not_lt, Nat.not_lt] at hroom
      have hfits := Nat.le_trans (encodedLen_alone hm.complete) hroom.2
      obtain ⟨frames, last, heq, hframes, hlast⟩ :=
        ih (m := { m with reports := m.reports ++ [report] }) ⟨hm.complete, hroom.1, fun _ => hroom.2⟩
      refine ⟨frames, last, heq, hframes, ?_⟩
      rw [append_assoc, singleton_append] at hlast
      refine hlast.imp ?_ ?_
      · rintro ⟨hall, hlast, htotal, hcat, hnil⟩
        exact ⟨forall_mem_cons.mpr ⟨hfits, hall⟩, hlast, htotal, hcat, fun h => absurd (hnil h).1 (by simp)⟩
      · rintro ⟨⟨r, hr, hlarge⟩, h⟩
        exact ⟨⟨r, mem_cons_of_mem _ hr, hlarge⟩, h⟩

/-- What is sent, and whether the connection is closed: only the last frame is complete, and the frames have all
reports and their number, or the last says that a report is too large. -/
def Answers (encode : Report → List UInt8) (reports : List Report) (frames : List OrderStatusResponse) (close : Bool) :
    Prop :=
  (∀ f ∈ frames, f.encodedLen encode ≤ maxStatusFrameBytes ∧ f.reports.length ≤ 64) ∧
    ((∃ front last, frames = front ++ [last] ∧ (∀ f ∈ front, f.complete = false) ∧ last.complete = true ∧
        ((frames.flatMap (·.reports) = reports ∧ ∀ f ∈ frames, f.totalReports.toNat = reports.length) ∨
          (last.reports = [] ∧ last.rejectReason = "status report exceeds frame limit" ∧
            front.flatMap (·.reports) <+: reports))) ∨
      (close = true ∧ ∀ f ∈ frames, f.complete = false))

variable {requestId sender reject : String} {reports : List Report}

theorem Sendable.first : Sendable encode (firstResponse requestId sender reject reports) :=
  ⟨rfl, Nat.zero_le _, fun h => absurd rfl h⟩

private theorem not_answers (hlong : 2 ^ 32 ≤ reports.length) (hfits : ∀ r ∈ reports,
    ((firstResponse requestId sender reject reports).alone r).encodedLen encode ≤ maxStatusFrameBytes) :
    ¬ Answers encode reports (sendOrderStatus encode requestId sender reject reports).1
      (sendOrderStatus encode requestId sender reject reports).2 := by
  obtain ⟨_, last, heq, -, ⟨-, hlast, _, -, hnil⟩ | ⟨⟨r, hr, hlarge⟩, -⟩⟩ :=
    sendReports_spec reports (@Sendable.first encode requestId sender reject reports)
  · have hne : last.reports ≠ [] := by
      intro h
      rw [(hnil h).2] at hlong
      contradiction
    rw [sendOrderStatus, heq]
    simp only [if_pos (hlast.size hne)]
    rintro ⟨-, ⟨_, _, happ, -, -, ⟨-, hall⟩ | ⟨hnil', -⟩⟩ | ⟨hclose, -⟩⟩
    · have := hall last (by simp)
      have := last.totalReports.toNat_lt
      omega
    · obtain ⟨-, rfl⟩ := append_singleton_inj.mp happ
      exact hne hnil'
    · cases hclose
  · exact absurd (hfits r hr) (Nat.not_le.mpr hlarge)

/-- An answer is as it has to be exactly if there are less than `2 ^ 32` reports or one of them does not fit into a
frame even alone. -/
theorem status_batches_iff (encode : Report → List UInt8) (requestId sender reject : String) (reports : List Report) :
    Answers encode reports (sendOrderStatus encode requestId sender reject reports).1
        (sendOrderStatus encode requestId sender reject reports).2 ↔
      reports.length < 2 ^ 32 ∨ ∃ r ∈ reports,
        maxStatusFrameBytes < ((firstResponse requestId sender reject reports).alone r).encodedLen encode := by
  constructor
  · intro h
    by_contra hcond
    push Not at hcond
    exact not_answers hcond.1 hcond.2 h
  intro hcond
  obtain ⟨frames, last, heq, hframes, hlast⟩ :=
    sendReports_spec reports (@Sendable.first encode requestId sender reject reports)
  rw [sendOrderStatus, heq]
  simp only
  split
  · rename_i hsize
    have hcount : last.reports.length ≤ 64 ∧ last.complete = true := by
      rcases hlast with ⟨-, h, -⟩ | ⟨-, h, hnil, -⟩
      · exact ⟨h.count, h.complete⟩
      · exact ⟨by simp [hnil], h⟩
    refine ⟨?_, .inl ⟨frames, last, rfl, fun f hf => (hframes f hf).complete, hcount.2, hlast.imp ?_ ?_⟩⟩
    · exact forall_mem_append.mpr ⟨fun f hf => (hframes f hf).fits, by simp [hsize, hcount.1]⟩
    · rintro ⟨hall, -, htotal, hcat, -⟩
      have hlt : reports.length < 2 ^ 32 := by
        refine hcond.resolve_right ?_
        rintro ⟨r, hr, hlarge⟩
        exact absurd (hall r hr) (Nat.not_le.mpr hlarge)
      have htoNat : (firstResponse requestId sender reject reports).totalReports.toNat = reports.length :=
        UInt32.toNat_ofNat_of_lt' hlt
      refine ⟨by simpa [firstResponse] using hcat, forall_mem_append.mpr ⟨fun f hf => ?_, ?_⟩⟩
      · rw [(hframes f hf).total, htoNat]
      · simp [htotal, htoNat]
    · rintro ⟨-, -, hnil, hreason, hfront⟩
      exact ⟨hnil, hreason, hfront⟩
  · exact ⟨fun f hf => (hframes f hf).fits, .inr ⟨rfl, fun f hf => (hframes f hf).complete⟩⟩

/-- With `2 ^ 32` reports the number in the frames is zero. -/
theorem status_total_wraps : ¬ Answers (fun _ => []) (List.replicate (2 ^ 32) Engine.emptyReport)
    (sendOrderStatus (fun _ => []) "" "" "" (List.replicate (2 ^ 32) Engine.emptyReport)).1
    (sendOrderStatus (fun _ => []) "" "" "" (List.replicate (2 ^ 32) Engine.emptyReport)).2 := by
  apply not_answers
  · rw [length_replicate]
  intro r hr
  rw [eq_of_mem_replicate hr, firstResponse, length_replicate]
  decide +kernel

end Fxp
