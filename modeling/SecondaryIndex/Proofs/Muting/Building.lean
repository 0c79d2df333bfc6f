import SecondaryIndex.Proofs.Meaning
import SecondaryIndex.Proofs.Muting.Closing
import SecondaryIndex.Query

namespace SecondaryIndex

open Act

variable {X Y : Fault → Prop}

theorem Segment.alike_search (s : Segment) (c : Condition) : Alike X Y (s.search c) := by
  rw [search]
  refine fun e he => Muting.Alike.get_bind ?_ he
  have hmuted : ((Engine.muting X).mute e).segment? s = (e.segment? s).map SegmentState.muted :=
    Engine.segment?_muted e s
  cases hs : e.segment? s with
  | none =>
    rw [hs] at hmuted
    simp only [hmuted, Option.map_none]
    exact .throw _
  | some state =>
    rw [hs] at hmuted
    simp only [hmuted, Option.map_some]
    have hsearch : state.muted.reader.search c =
        (state.reader.search c).map (Option.map Found.muted) := state.reader.search_muted c
    rw [hsearch]
    refine .ite (.bind (.throw _) fun _ e₁ => ?_) ?_
    all_goals
      cases hfound : state.reader.search c with
      | error f => exact fun he => .inr ⟨he, rfl, rfl⟩
      | ok found =>
        cases found with
        | none => exact fun he => .inr ⟨he, rfl, rfl⟩
        | some found =>
          -- What is brought comes from a reader of the engine.
          have hopen : (Cursor.ofTokens found.tokens found.closeFault (some s.id)).ClosesIn X :=
            (he.1 s.id state hs).search hfound
          exact (Cursor.alike_openMuted hopen _).map

namespace Matches

theorem alike_probe (c : Condition) (s : Segment) : Alike X X (probe c s) := by
  rw [probe]
  refine .bind (Segment.alike_retain s) fun b => .ite (.pure _) ?_
  have hsearch := (Segment.alike_search (X := X) (Y := X) s c).orUndo
    (Segment.alike_release s).follows
  refine .bind hsearch fun found => ?_
  cases found with
  | none => exact .bind (Segment.alike_release s) fun _ => .pure _
  | some id =>
    refine Cursor.alike_state_bind (fun cursor => .ite ?_ (.pure _)) fun _ => rfl
    have hclose := (Cursor.closes_close (X := X) id).alike.orUndo (Segment.alike_release s).follows
    exact .bind hclose fun _ => .bind (Segment.alike_release s) fun _ => .pure _

theorem alike_gather (c : Condition) (segments : List Segment) : Alike X X (gather c segments) := by
  induction segments with
  | nil => exact .pure _
  | cons s rest ih =>
    rw [gather]
    refine .bind (alike_probe c s) fun found => ?_
    cases found with
    | none => exact ih
    | some id =>
      refine .bind (.orUndo ih (Alike.follows ?_)) fun _ => .pure _
      exact .bind (.quietly (Cursor.closes_close id).follows) fun _ => Segment.alike_release s

end Matches

namespace Merge

theorem alike_add (m : Merge) (input : Option CursorId) : Alike X Y (m.add input) := by
  cases input with
  | none => exact .pure _
  | some id => exact Cursor.alike_state_bind (fun _ => .pure _) fun _ => rfl

theorem alike_addAll (m : Merge) (inputs : List (Option CursorId)) :
    Alike X Y (m.addAll inputs) := by
  induction inputs generalizing m with
  | nil => exact .pure _
  | cons input rest ih => exact .bind (alike_add m input) fun m' => ih m'

theorem alike_build (m : Merge) : Alike X X m.build := by
  rw [build]
  split
  · exact .pure _
  · exact .pure _
  refine Alike.map ?_
  rw [combine]
  split
  · exact Cursor.alike_openAs rfl
  · refine .ite (.bind (Cursor.closes_closeAll _).alike fun _ => ?_) ?_
    · exact Cursor.alike_openAs rfl
    · exact Cursor.alike_openAs rfl

end Merge

theorem Matches.alike_openAs (c : Condition) (memtable : Option CursorId)
    (segments : List Segment) : Alike X X (openAs c memtable segments) := by
  rw [openAs]
  refine .bind (alike_gather c segments) fun found => ?_
  refine .bind (.bind (Merge.alike_addAll _ _) fun m => Merge.alike_build m) fun merged => ?_
  cases merged with
  | none => exact .pure _
  | some merged =>
    exact Cursor.alike_state_bind (fun _ => (Cursor.alike_openAs rfl).map) fun _ => rfl

theorem Catalog.alike_searchMemtable (id : IndexId) (c : Condition) :
    Alike X Y (searchMemtable id c) := by
  rw [searchMemtable]
  refine .get_bind (fun e => ?_) fun _ => rfl
  cases e.indexes[id]? with
  | none => exact .pure _
  | some index =>
    exact .bind (.settle _) fun tokens => .ite (.pure _) (Cursor.alike_openAs rfl).map

namespace Session

theorem alike_openMatches (d : Candidate) : Alike X X (openMatches d) := by
  rw [openMatches]
  cases d.condition.index with
  | none => exact Matches.alike_openAs _ none _
  | some i =>
    exact .bind (Catalog.alike_searchMemtable i _) fun memtable =>
      Matches.alike_openAs _ memtable _

theorem alike_openAll (cands : List Candidate) : Alike X X (openAll cands) := by
  induction cands with
  | nil => exact .pure _
  | cons d rest ih =>
    rw [openAll]
    refine .bind (alike_openMatches d) fun found => ?_
    cases found with
    | none => exact ih
    | some x => exact .bind (.orUndo ih (Cursor.closes_close x).follows) fun _ => .pure _

theorem alike_state (id : SessionId) : Alike X Y (state id) :=
  .get_bind (fun _ => .pure _) fun _ => rfl

theorem alike_update (id : SessionId) (change : Session → Session) : Alike X Y (update id change) :=
  .modify (fun _ => rfl) (fun _ => rfl) fun _ => rfl

theorem alike_candidates (id : SessionId) (k : Connective) (group : Group) :
    Alike X Y (candidates id k group) := by
  rw [candidates]
  refine .bind (alike_state id) fun s => .get_bind (fun _ => .settle _) fun e => ?_
  have hindexes : e.muted.indexes = e.indexes := rfl
  exact congrArg settle (Candidate.ofGroup_indexes hindexes s.scope k group)

theorem alike_plan (id : SessionId) (k : Connective) (group : Group) :
    Alike X X (plan id k group) := by
  rw [plan]
  refine .bind (alike_state id) fun s => ?_
  have hopen : Alike X X (do
      let opened ← openAll (← candidates id k group)
      let merge ← ({ connective := k } : Merge).addAll (opened.map some)
      update id fun s => { s with groups := s.groups.insert group opened }
      return merge) := by
    refine .bind (alike_candidates id k group) fun cands => ?_
    refine .bind (alike_openAll cands) fun opened => ?_
    exact .bind (Merge.alike_addAll _ _) fun _ => .bind (alike_update id _) fun _ => .pure _
  have hgroup : Alike X X (do
      if s.groups.contains group then throw .groupOpen
      let opened ← openAll (← candidates id k group)
      let merge ← ({ connective := k } : Merge).addAll (opened.map some)
      update id fun s => { s with groups := s.groups.insert group opened }
      return merge) := .ite (.bind (.throw _) fun _ => hopen) hopen
  exact .ite (.bind (.throw _) fun _ => hgroup) hgroup

end Session

namespace Query

theorem alike_start (id : SessionId) (k : Connective) (group : Group) :
    Alike X X (start id k group) := by
  rw [start]
  exact .ite (.pure _) (.bind (Session.alike_plan id k group) fun _ => .pure _)

theorem alike_join (m : Merge) (part : Query) {build : Act (Option CursorId)}
    (h : Alike X X build) : Alike X X (join m part build) := by
  rw [join]
  refine .ite (.pure _) (.bind h fun found => ?_)
  cases found with
  | none => exact .pure _
  | some id => exact (Merge.alike_add m _).map

theorem alike_build (id : SessionId) (q : Query) : Alike X X (q.build id) := by
  induction q with
  | absent => exact .pure _
  | node k group left right ihl ihr =>
    rw [build]
    refine .bind (alike_start id k group) fun m => ?_
    cases m with
    | none => exact .pure _
    | some m =>
      refine .bind (alike_join m left ihl) fun m => ?_
      cases m with
      | none => exact .pure _
      | some m =>
        refine .bind (alike_join m right ihr) fun m => ?_
        cases m with
        | none => exact .pure _
        | some m => exact Merge.alike_build m

end Query
end SecondaryIndex
