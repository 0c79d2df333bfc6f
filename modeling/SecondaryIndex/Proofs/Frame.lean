import SecondaryIndex.Proofs.Ensures
import SecondaryIndex.Session

namespace SecondaryIndex

structure Frame (e e' : Engine) : Prop where
  live : e'.live = e.live
  schema : e'.schema = e.schema
  published : e'.published = e.published
  handles : e'.handles = e.handles
  indexes : e'.indexes = e.indexes
  sessions : e'.sessions = e.sessions

theorem Frame.refl (e : Engine) : Frame e e := ⟨rfl, rfl, rfl, rfl, rfl, rfl⟩

theorem Frame.trans {e e' e'' : Engine} (h : Frame e e') (h' : Frame e' e'') : Frame e e'' :=
  ⟨h'.live.trans h.live, h'.schema.trans h.schema, h'.published.trans h.published,
    h'.handles.trans h.handles, h'.indexes.trans h.indexes, h'.sessions.trans h.sessions⟩

theorem Frame.updateIndex {e e' : Engine} (h : Frame e e') (i : IndexId)
    (change : ColumnIndex → ColumnIndex) :
    Frame (e.updateIndex i change) (e'.updateIndex i change) :=
  ⟨h.live, h.schema, h.published, h.handles, congrArg (·.modify i change) h.indexes, h.sessions⟩

/-- Such an act does not look at the sessions either. -/
structure Framed {α : Type} (act : Act α) : Prop where
  frame : ∀ e, Ensures act e fun _ e' => Frame e e'
  blind : ∀ (e : Engine) sessions,
    act { e with sessions } = ((act e).1, { (act e).2 with sessions })

namespace Framed

variable {α β : Type} {act : Act α} {next : α → Act β}

theorem keeps_frame (h : Framed act) (e₀ : Engine) : Keeps (Frame e₀) act :=
  fun e he => (h.frame e).mono fun _ _ he' => he.trans he'

theorem pure (a : α) : Framed (pure a : Act α) := ⟨.refl, fun _ _ => rfl⟩

theorem throw (f : Fault) : Framed (throw f : Act α) := ⟨.refl, fun _ _ => rfl⟩

theorem settle (r : Except Fault α) : Framed (Act.settle r) := by
  cases r with
  | ok a => exact pure a
  | error f => exact throw f

theorem modify {change : Engine → Engine} (h : ∀ e, Frame e (change e))
    (hblind : ∀ (e : Engine) sessions, change { e with sessions } = { change e with sessions }) :
    Framed (modify change : Act PUnit) where
  frame := h
  blind e sessions := by rw [Act.modify_apply, Act.modify_apply, hblind]

theorem bind (h : Framed act) (hnext : ∀ a, Framed (next a)) : Framed (act >>= next) where
  frame e := (h.keeps_frame e).bind (fun a => (hnext a).keeps_frame e) e (.refl e)
  blind e sessions := by
    rw [Act.bind_apply, Act.bind_apply, h.blind]
    rcases act e with ⟨f | a, e'⟩
    · rfl
    · exact (hnext a).blind e' sessions

/-- What is read of the engine is not its sessions. -/
theorem get_bind {next : Engine → Act α} (h : ∀ e, Framed (next e))
    (hblind : ∀ (e : Engine) sessions, next { e with sessions } = next e) :
    Framed (get >>= next) where
  frame e := ensures_get_bind.2 ((h e).frame e)
  blind e sessions := by
    change next { e with sessions } { e with sessions } = _
    rw [hblind]
    exact (h e).blind e sessions

theorem map {g : α → β} (h : Framed act) : Framed (g <$> act) := by
  rw [← bind_pure_comp]
  exact h.bind fun _ => pure _

theorem ite {c : Prop} [Decidable c] {act' : Act α} (h : Framed act) (h' : Framed act') :
    Framed (if c then act else act') := by
  split
  · exact h
  · exact h'

theorem attempt (h : Framed act) : Framed (Act.attempt act) where
  frame e := h.frame e
  blind e sessions := by
    rw [Act.attempt_apply, Act.attempt_apply, h.blind]

theorem quietly {act : Act Unit} (h : Framed act) : Framed (Act.quietly act) :=
  h.attempt.bind fun _ => pure _

theorem orUndo {undo : Act Unit} (h : Framed act) (hundo : Framed undo) :
    Framed (Act.orUndo act undo) := by
  refine h.attempt.bind fun r => ?_
  cases r with
  | ok a => exact pure a
  | error f => exact hundo.quietly.bind fun _ => throw f

theorem all {step : α → Act Unit} (h : ∀ a, Framed (step a)) (as : List α) :
    Framed (Act.all step as) := by
  induction as with
  | nil => exact pure _
  | cons a rest ih =>
    exact (h a).attempt.bind fun first => ih.attempt.bind fun others =>
      (settle first).bind fun _ => settle others

theorem allQuietly {step : α → Act Unit} (h : ∀ a, Framed (step a)) (as : List α) :
    Framed (Act.allQuietly step as) := by
  induction as with
  | nil => exact pure _
  | cons a rest ih => exact (h a).quietly.bind fun _ => ih

theorem pull (step : Pull.Step α) : Framed (Act.pull step) :=
  ⟨fun _ => ⟨rfl, rfl, rfl, rfl, rfl, rfl⟩, fun _ _ => rfl⟩

end Framed

theorem DataFile.framed_create (generation : Nat) (path : String) (minKey maxKey : Token) :
    Framed (create generation path minKey maxKey) :=
  ⟨fun _ => ⟨rfl, rfl, rfl, rfl, rfl, rfl⟩, fun _ _ => rfl⟩

theorem DataFile.framed_update (f : DataFile) (change : FileState → FileState) :
    Framed (modify (·.updateFile f change) : Act PUnit) :=
  .modify (fun _ => ⟨rfl, rfl, rfl, rfl, rfl, rfl⟩) fun _ _ => rfl

theorem DataFile.framed_retain (f : DataFile) : Framed f.retain := by
  rw [retain]
  refine .get_bind (fun _ => .ite (.pure _) ?_) fun _ _ => rfl
  exact .bind (framed_update f _) fun _ => .pure _

theorem DataFile.framed_release (f : DataFile) : Framed f.release := by
  rw [release]
  refine .get_bind (fun _ => .ite ?_ (framed_update f _)) fun _ _ => rfl
  exact .bind (.throw _) fun _ => framed_update f _

theorem DataFile.framed_markCompacted (f : DataFile) : Framed f.markCompacted := framed_update f _

theorem DataFile.framed_releaseAll (fs : List DataFile) : Framed (releaseAll fs) :=
  .allQuietly framed_release fs

theorem DataFile.framed_retainAll (fs : List DataFile) : Framed (retainAll fs) := by
  induction fs with
  | nil => exact .pure _
  | cons f rest ih =>
    rw [retainAll]
    refine .bind (framed_retain f) fun b => .ite (.pure _) (.bind ih fun held => ?_)
    cases held with
    | none => exact .bind (framed_release f).quietly fun _ => .pure _
    | some held => exact .pure _

theorem BaseTable.framed_retire (fs : List DataFile) : Framed (retire fs) := by
  induction fs with
  | nil => exact .pure _
  | cons f rest ih =>
    rw [retire]
    exact .bind (DataFile.framed_markCompacted f) fun _ =>
      .bind (DataFile.framed_release f) fun _ => ih

theorem BaseTable.framed_pin (range : Option KeyRange) : Framed (pin range) := by
  cases range with
  | none => exact .pure _
  | some r =>
    exact .get_bind (fun _ => .bind (DataFile.framed_retainAll _) fun _ => .pure _) fun _ _ => rfl

theorem BaseTable.framed_shutdown : Framed shutdown :=
  .get_bind (fun e => DataFile.framed_releaseAll e.live) fun _ _ => rfl

theorem Segment.framed_create (file : Option DataFile) (reader : Option Reader)
    (minKey maxKey : Token) (minTerm maxTerm : Bytes) :
    Framed (create file reader minKey maxKey minTerm maxTerm) := by
  have hpush : ∀ (r : Reader) (f : DataFile), Framed (do
      let e ← (MonadState.get : Act Engine)
      set { e with segments := e.segments.push { reader := r, refs := 1 } }
      return (⟨e.segments.size, f, minKey, maxKey, minTerm, maxTerm⟩ : Segment)) :=
    fun _ _ => ⟨fun _ => ⟨rfl, rfl, rfl, rfl, rfl, rfl⟩, fun _ _ => rfl⟩
  cases file with
  | none => exact .throw _
  | some f =>
    cases reader with
    | none => exact .throw _
    | some r =>
      refine .bind (DataFile.framed_retain f) fun b => ?_
      cases b with
      | false => exact .bind (.throw _) fun _ => hpush r f
      | true => exact hpush r f

theorem Segment.framed_update (s : Segment) (change : SegmentState → SegmentState) :
    Framed (modify (·.updateSegment s change) : Act PUnit) :=
  .modify (fun _ => ⟨rfl, rfl, rfl, rfl, rfl, rfl⟩) fun _ _ => rfl

theorem Segment.framed_retain (s : Segment) : Framed s.retain := by
  rw [retain]
  refine .get_bind (fun _ => .ite (.pure _) ?_) fun _ _ => rfl
  exact .bind (framed_update s _) fun _ => .pure _

theorem Segment.framed_closeReader (s : Segment) : Framed s.closeReader := by
  rw [closeReader]
  refine .get_bind (fun e => ?_) fun _ _ => rfl
  cases e.segment? s with
  | none => exact .pure _
  | some state => exact .bind (framed_update s _) fun _ => .settle _

theorem Segment.framed_release (s : Segment) : Framed s.release := by
  rw [release]
  refine .get_bind (fun e => ?_) fun _ _ => rfl
  have hdrop : Framed (do
      modify (·.updateSegment s fun state => { state with refs := state.refs - 1 })
      if e.refs s = 1 then
        Act.quietly s.closeReader
        Act.quietly s.file.release : Act Unit) := by
    refine .bind (framed_update s _) fun _ => .ite ?_ (.pure _)
    exact .bind (framed_closeReader s).quietly fun _ => (DataFile.framed_release s.file).quietly
  exact .ite (.bind (.throw _) fun _ => hdrop) hdrop

theorem Segment.framed_releaseAll (segments : List Segment) : Framed (releaseAll segments) :=
  .allQuietly framed_release segments

theorem Cursor.framed_openAs (c : Cursor) : Framed c.openAs :=
  ⟨fun _ => ⟨rfl, rfl, rfl, rfl, rfl, rfl⟩, fun _ _ => rfl⟩

theorem Cursor.framed_closeWithin (depth : Nat) (id : CursorId) :
    Framed (closeWithin depth id) := by
  induction depth generalizing id with
  | zero => exact .pure _
  | succ depth ih =>
    rw [closeWithin]
    refine .bind (.pull _) fun c => .bind (.pull _) fun _ => ?_
    rcases c with ⟨_, ⟨_, _ | f, _⟩ | children | children | ⟨merged, segments⟩, _, _, _⟩
    · exact .pure _
    · exact .throw f
    · exact .ite (.all ih children) (.pure _)
    · exact .ite (.all ih children) (.pure _)
    · refine .ite ?_ (.pure _)
      exact (ih merged).attempt.bind fun r => (Segment.framed_releaseAll segments).bind fun _ =>
        .settle r

theorem Cursor.framed_close (id : CursorId) : Framed (close id) := framed_closeWithin (id + 1) id

theorem Cursor.framed_closeAll (ids : List CursorId) : Framed (closeAll ids) :=
  .all framed_close ids

theorem Cursor.framed_closeQuietly (ids : List CursorId) : Framed (closeQuietly ids) :=
  .allQuietly framed_close ids

theorem Segment.framed_search (s : Segment) (c : Condition) : Framed (s.search c) := by
  rw [search]
  refine .get_bind (fun e => ?_) fun _ _ => rfl
  cases e.segment? s with
  | none => exact .throw _
  | some state =>
    refine .ite (.bind (.throw _) fun _ => ?_) ?_
    all_goals
      refine .bind (.settle _) fun found => ?_
      cases found with
      | none => exact .pure _
      | some found => exact (Cursor.framed_openAs _).map

theorem Matches.framed_probe (c : Condition) (s : Segment) : Framed (probe c s) := by
  rw [probe]
  refine .bind (Segment.framed_retain s) fun b => .ite (.pure _) ?_
  refine .bind (.orUndo (Segment.framed_search s c) (Segment.framed_release s)) fun found => ?_
  cases found with
  | none => exact .bind (Segment.framed_release s) fun _ => .pure _
  | some id =>
    refine .bind (.pull _) fun cursor => .ite ?_ (.pure _)
    exact .bind (.orUndo (Cursor.framed_close id) (Segment.framed_release s)) fun _ =>
      .bind (Segment.framed_release s) fun _ => .pure _

theorem Matches.framed_gather (c : Condition) (segments : List Segment) :
    Framed (gather c segments) := by
  induction segments with
  | nil => exact .pure _
  | cons s rest ih =>
    rw [gather]
    refine .bind (framed_probe c s) fun found => ?_
    cases found with
    | none => exact ih
    | some id =>
      refine .bind (.orUndo ih ?_) fun _ => .pure _
      exact .bind (Cursor.framed_close id).quietly fun _ => Segment.framed_release s

theorem Merge.framed_add (m : Merge) (input : Option CursorId) : Framed (m.add input) := by
  cases input with
  | none => exact .pure _
  | some id => exact .bind (.pull _) fun _ => .pure _

theorem Merge.framed_addAll (m : Merge) (inputs : List (Option CursorId)) :
    Framed (m.addAll inputs) := by
  induction inputs generalizing m with
  | nil => exact .pure _
  | cons input rest ih => exact .bind (framed_add m input) fun m' => ih m'

theorem Merge.framed_build (m : Merge) : Framed m.build := by
  rw [build]
  split
  · exact .pure _
  · exact .pure _
  refine Framed.map ?_
  rw [combine]
  split
  · exact Cursor.framed_openAs _
  · exact .ite (.bind (Cursor.framed_closeAll _) fun _ => Cursor.framed_openAs _)
      (Cursor.framed_openAs _)

theorem Matches.framed_openAs (c : Condition) (memtable : Option CursorId)
    (segments : List Segment) : Framed (openAs c memtable segments) := by
  rw [openAs]
  refine .bind (framed_gather c segments) fun found => ?_
  refine .bind (.bind (Merge.framed_addAll _ _) fun m => Merge.framed_build m) fun merged => ?_
  cases merged with
  | none => exact .pure _
  | some merged => exact .bind (.pull _) fun _ => (Cursor.framed_openAs _).map

theorem Catalog.framed_searchMemtable (id : IndexId) (c : Condition) :
    Framed (searchMemtable id c) := by
  rw [searchMemtable]
  refine .get_bind (fun e => ?_) fun _ _ => rfl
  cases e.indexes[id]? with
  | none => exact .pure _
  | some index =>
    exact .bind (.settle _) fun tokens => .ite (.pure _) (Cursor.framed_openAs _).map

theorem Session.framed_openMatches (d : Candidate) : Framed (openMatches d) := by
  rw [openMatches]
  cases d.condition.index with
  | none => exact Matches.framed_openAs _ none _
  | some i =>
    exact .bind (Catalog.framed_searchMemtable i _) fun memtable =>
      Matches.framed_openAs _ memtable _

theorem Session.framed_openAll (cands : List Candidate) : Framed (openAll cands) := by
  induction cands with
  | nil => exact .pure _
  | cons d rest ih =>
    rw [openAll]
    refine .bind (framed_openMatches d) fun found => ?_
    cases found with
    | none => exact ih
    | some x => exact .bind (.orUndo ih (Cursor.framed_close x)) fun _ => .pure _

end SecondaryIndex
