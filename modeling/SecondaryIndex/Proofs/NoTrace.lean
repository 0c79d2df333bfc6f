import SecondaryIndex.Proofs.Holding.Kept

namespace SecondaryIndex.Query.Request

/-- A run may end early or fail at any point: all references and readers are as they were, and each
cursor that a segment handed out since then has been closed exactly once. -/
theorem run_leaves_no_trace {e : Engine} (h : Reachable e) (r : Request) :
    (r.run e).2.files = e.files ∧ (r.run e).2.segments = e.segments ∧
      ∀ (x : CursorId) (c : Cursor), e.cursors.size ≤ x → (r.run e).2.cursors[x]? = some c →
        c.source.handedOut = true → c.closes = 1 := by
  obtain ⟨hsettled, hfiles⟩ := Loan.run_settled r h.holding
  exact ⟨hfiles, hsettled.segments, hsettled.handedOut⟩

/-- One file with one segment, whose cursors fail when they are closed. -/
def faultySteps : List Operation :=
  let file : DataFile := ⟨0, 1, "data", 0, 9⟩
  let reader : Reader := { store := .external fun _ => .ok (some ⟨[3, 5], some .searchAfterClose⟩) }
  [.createFile 1 "data" 0 9, .replaceFiles [] [file],
    .createSegment (some file) (some reader) 3 5 [120] [120], .register "a" (some .text),
    .createIndex "a", .attach "a" [] [⟨0, file, 3, 5, [120], [120]⟩]]

def faultyStore : Engine := Operation.effects faultySteps {}

/-- A run that is out of time at the first row, while the cursor of a segment is open. -/
def cutShort : Request where
  query := .node .and [⟨"a", .text, some 0, .eq [120]⟩] .absent .absent
  range := some .full
  options := { checkpointInterval := 1 }
  clock reading := if reading < 2 then 0 else .ofMilliseconds 5000

theorem cutShort_leaves_no_trace :
    (cutShort.run faultyStore).1.fault =
        some (.outOfTime (.ofMilliseconds 5000) (.ofMilliseconds 5000)) ∧
      (cutShort.run faultyStore).2.cursors[0]?.map (·.source.handedOut) = some true ∧
        (cutShort.run faultyStore).2.segments = faultyStore.segments := by
  have hreach : Reachable faultyStore := Reachable.start.steps faultySteps
  refine ⟨?_, ?_, (run_leaves_no_trace hreach cutShort).2.1⟩
  · decide +kernel
  · decide +kernel

end SecondaryIndex.Query.Request
