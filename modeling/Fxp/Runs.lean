import Fxp.Safety

/-!
# What every run keeps

The book is well formed between two calls, and every report has the next id of the source of execution ids.
-/

namespace Fxp

open List

variable {R : Type} {cfg : Settings} {e : Engine R} {out : List (Output R)}

/-- In every reachable engine the levels and the tables of the book agree. -/
theorem book_wellFormed (h : Run anyCall (Engine.new cfg) e out) :
    e.book.WF := (h.sound (.new ..)).book

theorem book_wellFormed_iceberg : ∃ e out, Run anyCall (Engine.sample none) e out ∧ e.book.displayed["A"]? = some 1 ∧
    e.book.WF := by
  obtain ⟨e, out, hrun, hshown⟩ := Run.of_computed anyCall (Engine.sample none)
    [(.at 1, .newOrder { NewOrderSingle.sample "A" "a" .sell 100 5 with displayQuantity := 2 } 0),
      orderAt 2 "B" "b" .buy 100 3] (fun e _ => e.book.displayed["A"]? = some 1) (by decide +kernel)
  exact ⟨e, out, hrun, hshown, book_wellFormed hrun⟩

/-- The reports so far have the ids of the source in their order. -/
structure Progress.Identified (ids : Nat → String) (base : List (Output R)) (w : Progress R) : Prop where
  source : w.call.engine.ids = ids
  reports : (reportsOf (base ++ w.call.out)).map Report.executionId = (range w.call.engine.issued).map ids

theorem Step.identified {x : Context R} {w w' : Progress R} {base : List (Output R)} (h : Step x w w')
    (hw : w.Identified ids base) : w'.Identified ids base := by
  obtain ⟨hsource, hreports⟩ := hw
  refine ⟨h.frame.ids.trans hsource, ?_⟩
  cases h.reported with
  | silent hout hl _ hissued =>
    rw [hout, ← append_assoc, reportsOf_append, hl, append_nil, hreports, hissued]
  | edited _ _ _ _ _ _ hout _ hissued | rejected _ _ hout _ hissued =>
    rw [hout, ← append_assoc, reportsOf_append, map_append, hreports, hissued, range_succ, map_append, ← hsource]
    rfl
  | @entered _ _ _ _ _ ack _ _ _ _ _ _ hout _ hissued =>
    rw [hout, ← append_assoc, reportsOf_append, map_append, hreports, hissued, ← hsource]
    cases ack with
    | true => simp [range_succ, Engine.nextReport, buildReport, Engine.reportOf]
    | false => simp
  | swapped _ _ _ _ _ hout _ hissued =>
    rw [hout, ← append_assoc, reportsOf_append, map_append, hreports, hissued, range_succ, range_succ, ← hsource]
    simp [Engine.nextReport, buildReport, Engine.reportOf]

/-- The reports of a run have the execution ids `ids 0`, `ids 1` and so on, in the order in which they are put out. -/
theorem execution_ids_in_order (h : Run anyCall (Engine.new cfg) e out) :
    (reportsOf out).map Report.executionId = (range e.issued).map cfg.ids ∧
      (cfg.ids.Injective → ((reportsOf out).map Report.executionId).Nodup) := by
  obtain ⟨-, hids⟩ := h.invariant (J := fun base w => w.Identified cfg.ids base) (.new ..) ⟨rfl, rfl⟩
    (fun _ _ _ hstep hw => hstep.identified hw)
    (fun hmarket hout hw => by
      refine ⟨?_, ?_⟩ <;> simp only [idle] <;> rw [hmarket]
      · exact hw.source
      · rw [hout]
        exact hw.reports)
    (fun hw => ⟨hw.source, by simpa [idle] using hw.reports⟩)
  have hreports : (reportsOf out).map Report.executionId = (range e.issued).map cfg.ids := by
    simpa [idle] using hids.reports
  exact ⟨hreports, fun hinj => hreports ▸ nodup_range.map hinj⟩

theorem execution_ids_in_order_fill : ∃ e out, Run anyCall (Engine.sample none) e out ∧ e.issued = 4 ∧
    (reportsOf out).map Report.executionId = (range e.issued).map toString := by
  obtain ⟨e, out, hrun, hissued⟩ := Run.of_computed anyCall (Engine.sample none)
    [orderAt 1 "A" "a" .sell 100 5, orderAt 2 "B" "b" .buy 100 3]
    (fun e _ => e.issued = 4) (by decide +kernel)
  exact ⟨e, out, hrun, hissued, (execution_ids_in_order hrun).1⟩

end Fxp
