import SecondaryIndex.Proofs.Loan.Running
import SecondaryIndex.Proofs.Muting.Building
import SecondaryIndex.Proofs.Muting.Steps
import SecondaryIndex.Proofs.Operation

namespace SecondaryIndex

open Act

variable {X Y : Fault → Prop}

namespace Catalog

theorem alike_retire (id : IndexId) : Alike X Y (retire id) := by
  rw [retire]
  refine .get_bind (fun e => ?_) fun _ => rfl
  cases e.indexes[id]? with
  | none => exact .pure _
  | some index =>
    refine .ite (.pure _) (.bind ?_ fun _ => Segment.alike_releaseAll _)
    exact .modify (fun _ => rfl) (fun _ => rfl) fun _ => rfl

theorem alike_retireAll (ids : List IndexId) : Alike X Y (retireAll ids) := by
  induction ids with
  | nil => exact .pure _
  | cons id rest ih =>
    rw [retireAll]
    exact .bind (alike_retire id) fun _ => ih

theorem alike_reclaim : Alike X Y reclaim := .get_bind (fun _ => alike_retireAll _) fun _ => rfl

end Catalog

namespace Session

theorem alike_release (id : SessionId) (group : Group) : Alike X Y (release id group) := by
  rw [release]
  refine .bind (alike_state id) fun s => ?_
  cases s.groups.get? group with
  | none => exact .pure _
  | some cursors =>
    exact .bind (alike_update id _) fun _ => .bind Catalog.alike_reclaim fun _ =>
      Cursor.alike_closeQuietly cursors

theorem alike_releaseAll (id : SessionId) (groups : List Group) :
    Alike X Y (releaseAll id groups) := by
  induction groups with
  | nil => exact .pure _
  | cons group rest ih =>
    rw [releaseAll]
    exact .bind (alike_release id group) fun _ => ih

theorem alike_finish (id : SessionId) : Alike X Y (finish id) := by
  rw [finish]
  refine .bind (alike_state id) fun s => .ite (.pure _) (.bind (alike_update id _) fun _ => ?_)
  refine .bind (alike_releaseAll id _) fun _ => .bind (DataFile.alike_releaseAll _) fun _ => ?_
  exact alike_update id _

theorem alike_openAt (now : Duration) (range : Option KeyRange) (quota : Int64) :
    Alike X Y (openAt now range quota) := by
  have hpin : Alike X Y (BaseTable.pin range) := by
    cases range with
    | none => exact .pure _
    | some r =>
      exact .get_bind (fun _ => .bind (DataFile.alike_retainAll _) fun _ => .pure _) fun _ => rfl
  rw [openAt]
  refine .bind hpin fun scope e he => ?_
  exact .inr ⟨he, rfl, rfl⟩

theorem alike_checkpoint (id : SessionId) (now : Duration) : Alike X Y (checkpoint id now) := by
  rw [checkpoint]
  exact .bind (alike_state id) fun s => .ite (.throw _) (.pure _)

end Session

namespace Query.Request

theorem attends_muted (X : Fault → Prop) (Z : Fault → Progress → Prop) (id : SessionId) :
    Attends (Engine.muting X) Z id where
  checkpoint now := alike_quietAct (Session.alike_checkpoint id now)
  hasNext x := alike_quietAct (Act.Alike.pull (Pull.deaf_law.cursor_hasNext x))
  next x := alike_quietAct (Act.Alike.pull (Pull.deaf_law.cursor_next x))
  skipTo x t := alike_quietAct (Act.Alike.pull (Pull.deaf_law.cursor_skipTo x t))
  pending e := Pull.pending_muted e.cursors

variable (r : Request)

/-- No row was handed out, and the fault is one in `X`. -/
def EndsEarly (X : Fault → Prop) (f : Fault) (p : Progress) : Prop := X f ∧ p.rows = []

theorem alike_inSession (id : SessionId) {p : Progress} (hrows : p.rows = []) :
    (muting (Engine.muting X)).Alike (EndsEarly X) (r.inSession id) (r.inSession id) p := by
  rw [inSession]
  refine (alike_act (Query.alike_build id r.query _) fun _ _ hf => ⟨hf, hrows⟩).bind ?_
  have hattends := attends_muted X (EndsEarly X) id
  exact fun cursor => Alike.bind (hattends.alike_checkpoint r) fun _ =>
    hattends.alike_deliver r cursor

theorem alike_thenFinish (id : SessionId) {work : Step Unit} {p : Progress}
    (h : (muting (Engine.muting X)).Alike (EndsEarly X) work work p) :
    (muting (Engine.muting X)).Alike (EndsEarly X) (thenFinish id work) (thenFinish id work) p := by
  intro hp
  rw [Loan.ensures_thenFinish]
  refine (h hp).mono ?_
  rintro result p₁ (⟨f, hf, hresult⟩ | ⟨hp₁, hsame⟩)
  · exact .inl ⟨f, hf, hresult⟩
  · obtain ⟨he₂, hfinish⟩ := (Session.alike_finish id).follows p₁.engine hp₁
    refine .inr ⟨he₂, Loan.ensures_thenFinish.2 (hsame.mono ?_)⟩
    rintro _ _ ⟨rfl, rfl⟩
    exact ⟨rfl, congrArg (fun engine => { p₁ with engine }) hfinish⟩

theorem alike_inOwnSession {p : Progress} (hrows : p.rows = []) :
    (muting (Engine.muting X)).Alike (EndsEarly X) r.inOwnSession r.inOwnSession p := by
  rw [inOwnSession]
  by_cases habsent : r.query.isAbsent = true
  · rw [if_pos habsent]
    exact fun hp => .inr ⟨hp, rfl, rfl⟩
  · rw [if_neg habsent]
    -- No row is handed out before the session is there, so a fault while building comes early.
    refine (alike_readClock r p).bind_of (R := fun p₁ => p₁.rows = []) hrows fun now p₁ h₁ => ?_
    refine (alike_quietAct (Session.alike_openAt now _ _) p₁).bind_of
      (R := fun p₂ => p₂.rows = []) h₁ fun session p₂ h₂ => ?_
    exact alike_thenFinish session (alike_inSession r session h₂)

end Query.Request

/-- The faults that closing what a search brings, or a cursor that is there, may end with. -/
inductive Engine.CloseFault (e : Engine) : Fault → Prop
  | search {i : Nat} {state : SegmentState} {c : Condition} {found : Found} {f : Fault}
      (at_ : e.segments[i]? = some state) (brings : state.reader.search c = .ok (some found))
      (fails : found.closeFault = some f) : CloseFault e f
  | cursor {id : CursorId} {c : Cursor} {f : Fault} (at_ : e.cursors[id]? = some c)
      (fails : c.source.closeFault = some f) : CloseFault e f

theorem Engine.holds_closeFault (e : Engine) : (Engine.muting e.CloseFault).Holds e := by
  refine ⟨fun i state hi => ?_, fun id c hc f hf => .cursor hc hf⟩
  rcases state with ⟨⟨_ | answer, closeFault, closes⟩, refs⟩
  · trivial
  · exact fun c found f hfound hf => .search hi hfound hf

namespace Query.Request

/-- However closing fails, a run hands out the same rows and ends in the same way as if it did not,
unless building the query fails with the fault of a close, before any row is handed out. -/
theorem run_muted (r : Request) (e : Engine) : (r.run e).1 = (r.run e.muted).1 ∨
    ∃ f, e.CloseFault f ∧ (r.run e).1 = ⟨[], some f⟩ := by
  have hrun := alike_inOwnSession r (p := { engine := e }) rfl e.holds_closeFault
  rcases hr : r.inOwnSession { engine := e } with ⟨result, p⟩
  rw [Ensures, hr] at hrun
  obtain ⟨f, ⟨hf, hrows⟩, hfault⟩ | ⟨-, hsame⟩ := hrun
  · refine .inr ⟨f, hf, ?_⟩
    obtain rfl : result = .error f := hfault
    rw [run, hr]
    exact congrArg (Outcome.mk · (some f)) hrows
  · have hmuted : r.inOwnSession { engine := e.muted } =
        (result, { p with engine := p.engine.muted }) := hsame.eq
    refine .inl ?_
    rw [run, run, hr, hmuted]

/-- A segment whose search brings nothing, and fails with that when it is closed. -/
def bringsNothing : Engine :=
  let file : DataFile := ⟨0, 1, "data", 0, 9⟩
  let reader : Reader := { store := .external fun _ => .ok (some ⟨[], some .searchAfterClose⟩) }
  Operation.effects [.createFile 1 "data" 0 9, .replaceFiles [] [file],
    .createSegment (some file) (some reader) 3 5 [120] [120], .register "a" (some .text),
    .createIndex "a", .attach "a" [] [⟨0, file, 3, 5, [120], [120]⟩]] {}

/-- The second case is there: building a query closes what brings nothing. -/
example :
    let query : Query := .node .or [⟨"a", .text, some 0, .eq [120]⟩] .absent .absent
    let r : Request := { query, range := some .full, clock := fun _ => 0 }
    (r.run bringsNothing).1 = ⟨[], some .searchAfterClose⟩ ∧
      (r.run bringsNothing.muted).1 = ⟨[], none⟩ := by
  decide +kernel

end Query.Request
end SecondaryIndex
