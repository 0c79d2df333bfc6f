import SecondaryIndex.Cursor.Lifetime

namespace SecondaryIndex.Segment

/-- Opens a cursor over the tokens that meet the condition, if the reader gives one. -/
def search (s : Segment) (c : Condition) : Act (Option CursorId) := do
  match (← get).segment? s with
  | none => throw (.searchAfterRelease s.text)
  | some state =>
    if state.refs = 0 then throw (.searchAfterRelease s.text)
    match ← Act.settle (state.reader.search c) with
    | none => return none
    | some found => some <$> (Cursor.ofTokens found.tokens found.closeFault (some s.id)).openAs

end SecondaryIndex.Segment
