import SecondaryIndex.Proofs.Loan.Closing
import SecondaryIndex.Proofs.Muting.Pulling
import SecondaryIndex.Session

namespace SecondaryIndex

def Found.muted (found : Found) : Found := { found with closeFault := none }

def Store.muted : Store → Store
  | .memory p => .memory p
  | .external answer => .external fun c => (answer c).map (Option.map Found.muted)

def Reader.muted (r : Reader) : Reader := { r with store := r.store.muted, closeFault := none }

def SegmentState.muted (state : SegmentState) : SegmentState :=
  { state with reader := state.reader.muted }

/-- Closing what a search brings has no faults but those in `X`. -/
def Store.BringsIn (X : Fault → Prop) : Store → Prop
  | .memory _ => True
  | .external answer => ∀ c found f, answer c = .ok (some found) → found.closeFault = some f → X f

theorem Reader.search_muted (r : Reader) (c : Condition) :
    r.muted.search c = (r.search c).map (Option.map Found.muted) := by
  rcases r with ⟨p | answer, closeFault, closes⟩
  · change Reader.search ⟨.memory p, none, closes⟩ c = _
    simp only [Reader.search]
    by_cases hclosed : closes > 0
    · rw [if_pos hclosed]
      rfl
    · rw [if_neg hclosed]
      cases p.search c with
      | error f => rfl
      | ok tokens =>
        refine congrArg Except.ok ?_
        split <;> rfl
  · rfl

theorem Store.BringsIn.search {X : Fault → Prop} {r : Reader} (h : r.store.BringsIn X)
    {c : Condition} {found : Found} (hfound : r.search c = .ok (some found)) :
    ∀ f, found.closeFault = some f → X f := by
  intro f hf
  rcases r with ⟨p | answer, closeFault, closes⟩
  · simp only [Reader.search] at hfound
    split at hfound
    · cases hfound
    · cases hsearch : p.search c with
      | error g =>
        rw [hsearch] at hfound
        cases hfound
      | ok tokens =>
        rw [hsearch] at hfound
        replace hfound := Except.ok.inj hfound
        split at hfound <;> cases hfound
        cases hf
  · exact h c found f hfound hf

namespace Engine

def muted (e : Engine) : Engine :=
  { e with segments := e.segments.map SegmentState.muted, cursors := e.cursors.map Cursor.muted }

def muting (X : Fault → Prop) : Muting Engine where
  mute := muted
  Holds e := (∀ (i : Nat) state, e.segments[i]? = some state → state.reader.store.BringsIn X) ∧
    (Pull.muting X).Holds e.cursors

theorem segment?_muted (e : Engine) (s : Segment) :
    e.muted.segment? s = (e.segment? s).map SegmentState.muted := Array.getElem?_map

theorem refs_muted (e : Engine) (s : Segment) : e.muted.refs s = e.refs s := by
  rw [refs, segment?_muted, Option.map_map]
  rfl

end Engine

namespace Act

variable {α β : Type} {X Y : Fault → Prop} {act act' : Act α} {next next' : α → Act β} {e : Engine}

/-- On a muted engine the act does the same, unless it fails with a fault in `Y`. -/
def Alike (X Y : Fault → Prop) (act : Act α) : Prop :=
  ∀ e, (Engine.muting X).Alike (fun f _ => Y f) act act e

/-- What the act leaves behind is alike, whatever its results are. -/
def Follows (X : Fault → Prop) (act : Act α) : Prop := ∀ e, (Engine.muting X).Holds e →
  Ensures act e fun _ e₁ => (Engine.muting X).Holds e₁ ∧
    Ensures act e.muted fun _ e' => e' = e₁.muted

/-- Closing fails with faults in `X` only, and not at all on a muted engine. -/
def Closes (X : Fault → Prop) (act : Act Unit) : Prop := ∀ e, (Engine.muting X).Holds e →
  Ensures act e fun r e₁ => (∀ f, r = .error f → X f) ∧ (Engine.muting X).Holds e₁ ∧
    Ensures act e.muted fun r' e' => r' = .ok () ∧ e' = e₁.muted

theorem Alike.follows (h : Alike X (fun _ => False) act) : Follows X act := by
  intro e he
  refine (h e he).mono ?_
  rintro r e₁ (⟨_, ⟨⟩, -⟩ | ⟨he₁, hsame⟩)
  exact ⟨he₁, hsame.2⟩

namespace Closes

variable {act : Act Unit}

theorem alike (h : Closes X act) : Alike X X act := by
  intro e he
  refine (h e he).mono ?_
  rintro (f | _) e₁ ⟨hr, he₁, hsame⟩
  · exact .inl ⟨f, hr f rfl, rfl⟩
  · exact .inr ⟨he₁, hsame⟩

theorem follows (h : Closes X act) : Follows X act := by
  intro e he
  refine (h e he).mono ?_
  rintro r e₁ ⟨-, he₁, hsame⟩
  exact ⟨he₁, hsame.2⟩

theorem pure : Closes X (pure ()) := by
  intro e he
  refine ⟨?_, he, rfl, rfl⟩
  rintro _ ⟨⟩

theorem all {step : α → Act Unit} (h : ∀ a, Closes X (step a)) (as : List α) :
    Closes X (Act.all step as) := by
  induction as with
  | nil => exact pure
  | cons a rest ih =>
    intro e he
    refine (h a e he).attempt_bind ?_
    rintro first e₁ ⟨hfirst, he₁, hsame₁⟩
    refine (ih e₁ he₁).attempt_bind ?_
    rintro others e₂ ⟨hothers, he₂, hsame₂⟩
    -- In the muted engine neither the first nor the rest fails, whatever they did in the other one.
    have hmuted : Ensures (Act.all step (a :: rest)) e.muted fun r' e' =>
        r' = .ok () ∧ e' = e₂.muted := by
      refine hsame₁.attempt_bind ?_
      rintro _ _ ⟨rfl, rfl⟩
      refine hsame₂.attempt_bind ?_
      rintro _ _ ⟨rfl, rfl⟩
      exact ⟨rfl, rfl⟩
    cases first with
    | error f => exact ⟨fun _ hf => hfirst _ hf, he₂, hmuted⟩
    | ok _ =>
      change Ensures (settle others) e₂ _
      rw [ensures_settle]
      exact ⟨hothers, he₂, hmuted⟩

theorem attempt_settle {between : Act Unit} (h : Closes X act) (hbetween : Follows X between)
    (hok : ∀ e, (between e).1 = .ok ()) : Closes X (do
      let result ← Act.attempt act
      between
      Act.settle result) := by
  intro e he
  have hrest : ∀ (result : Except Fault Unit) e₁, Ensures (do between; Act.settle result) e₁
      fun r e₂ => r = result ∧ e₂ = (between e₁).2 := by
    intro result e₁
    have hstep : Ensures between e₁ fun r e₂ => r = .ok () ∧ e₂ = (between e₁).2 := ⟨hok e₁, rfl⟩
    refine hstep.bind_ok ?_
    rintro _ rfl
    rw [ensures_settle]
    exact ⟨rfl, rfl⟩
  refine (h e he).attempt_bind ?_
  rintro result e₁ ⟨hresult, he₁, hsame₁⟩
  obtain ⟨he₂, hsame₂⟩ := hbetween e₁ he₁
  refine (hrest result e₁).mono ?_
  rintro _ _ ⟨rfl, rfl⟩
  refine ⟨hresult, he₂, hsame₁.attempt_bind ?_⟩
  rintro _ _ ⟨rfl, rfl⟩
  refine (hrest (.ok ()) e₁.muted).mono ?_
  rintro _ _ ⟨rfl, rfl⟩
  exact ⟨rfl, hsame₂⟩

end Closes

namespace Alike

theorem pure (a : α) : Alike X Y (pure a : Act α) := fun _ => .pure a

theorem throw (f : Fault) : Alike X Y (throw f : Act α) := fun _ => .throw f

theorem settle (r : Except Fault α) : Alike X Y (Act.settle r) := by
  cases r with
  | ok a => exact pure a
  | error f => exact throw f

theorem bind (h : Alike X Y act) (hnext : ∀ a, Alike X Y (next a)) : Alike X Y (act >>= next) :=
  fun e => (h e).bind fun a e₁ => hnext a e₁

theorem map {g : α → β} (h : Alike X Y act) : Alike X Y (g <$> act) := fun e => (h e).map

theorem ite {c : Prop} [Decidable c] (h : Alike X Y act) (h' : Alike X Y act') :
    Alike X Y (if c then act else act') := fun e => (h e).ite (h' e)

theorem get_bind {next : Engine → Act α} (h : ∀ e, Alike X Y (next e))
    (hmuted : ∀ e : Engine, next e.muted = next e) : Alike X Y (get >>= next) := by
  refine fun e => .get_bind ?_
  change (Engine.muting X).Alike _ (next e) (next e.muted) e
  rw [hmuted]
  exact h e e

theorem modify {change : Engine → Engine} (hsegments : ∀ e, (change e).segments = e.segments)
    (hcursors : ∀ e, (change e).cursors = e.cursors)
    (hmuted : ∀ e : Engine, change e.muted = (change e).muted) :
    Alike X Y (modify change : Act PUnit) := by
  refine fun e => .modify (fun he => ?_) (hmuted e)
  change (∀ (i : Nat) state, (change e).segments[i]? = _ → _) ∧
    (Pull.muting X).Holds (change e).cursors
  rw [hsegments, hcursors]
  exact he

theorem quietly {act : Act Unit} (h : Follows X act) : Alike X Y (Act.quietly act) := by
  intro e he
  refine .inr ⟨(h e he).1, rfl, (h e he).2⟩

theorem allQuietly {step : α → Act Unit} (h : ∀ a, Follows X (step a)) (as : List α) :
    Alike X Y (Act.allQuietly step as) := by
  induction as with
  | nil => exact pure _
  | cons a rest ih => exact (quietly (h a)).bind fun _ => ih

theorem orUndo {undo : Act Unit} (h : Alike X Y act) (hundo : Follows X undo) :
    Alike X Y (Act.orUndo act undo) := by
  intro e he
  refine (h e he).attempt_bind ?_
  rintro r e₁ (⟨f, hf, rfl⟩ | ⟨he₁, hsame⟩)
  · exact .inl ⟨f, hf, rfl⟩
  · cases r with
    | ok a =>
      refine .inr ⟨he₁, hsame.attempt_bind ?_⟩
      rintro _ _ ⟨rfl, rfl⟩
      exact ⟨rfl, rfl⟩
    | error f =>
      refine .inr ⟨(hundo e₁ he₁).1, hsame.attempt_bind ?_⟩
      rintro _ _ ⟨rfl, rfl⟩
      exact ⟨rfl, (hundo e₁ he₁).2⟩

theorem pull {step : Pull.Step α} (h : Pull.Deaf X step) : Alike X Y (Act.pull step) := by
  intro e he
  rw [ensures_pull]
  refine (h (fun f _ => Y f) e.cursors he.2).mono ?_
  rintro r cursors (hout | ⟨hcursors, hsame⟩)
  · exact .inl hout
  · refine .inr ⟨⟨he.1, hcursors⟩, ensures_pull.2 (hsame.mono ?_)⟩
    rintro _ _ ⟨rfl, rfl⟩
    exact ⟨rfl, rfl⟩

end Alike
end Act

open Act

variable {X Y : Fault → Prop}

namespace DataFile

theorem alike_retain (f : DataFile) : Alike X Y f.retain := by
  rw [retain]
  refine .get_bind (fun e => .ite (.pure _) (.bind ?_ fun _ => .pure _)) fun _ => rfl
  exact .modify (fun _ => rfl) (fun _ => rfl) fun _ => rfl

theorem alike_release (f : DataFile) : Alike X Y f.release := by
  rw [release]
  refine .get_bind (fun e => .ite (.bind (.throw _) fun _ => ?_) ?_) fun _ => rfl
  all_goals exact .modify (fun _ => rfl) (fun _ => rfl) fun _ => rfl

theorem alike_releaseAll (fs : List DataFile) : Alike X Y (releaseAll fs) :=
  .allQuietly (fun f => (alike_release f).follows) fs

theorem alike_retainAll (fs : List DataFile) : Alike X Y (retainAll fs) := by
  induction fs with
  | nil => exact .pure _
  | cons f rest ih =>
    rw [retainAll]
    refine .bind (alike_retain f) fun b => .ite (.pure _) (.bind ih fun held => ?_)
    cases held with
    | none => exact .bind (.quietly (alike_release f).follows) fun _ => .pure _
    | some held => exact .pure _

end DataFile

namespace Segment

theorem alike_updateSegment (s : Segment) {change : SegmentState → SegmentState}
    (hstore : ∀ state, (change state).reader.store = state.reader.store)
    (hmuted : ∀ state : SegmentState, change state.muted = (change state).muted) :
    Alike X Y (modify (·.updateSegment s change) : Act PUnit) := by
  refine fun e => .modify (fun he => ⟨fun i state hi => ?_, he.2⟩) ?_
  · change (e.segments.modify s.id change)[i]? = _ at hi
    rw [Array.getElem?_modify] at hi
    split at hi
    · obtain ⟨state', hstate', rfl⟩ := Option.map_eq_some_iff.1 hi
      rw [hstore]
      exact he.1 i state' hstate'
    · exact he.1 i state hi
  · have hsegments : (e.segments.map SegmentState.muted).modify s.id change =
        (e.segments.modify s.id change).map SegmentState.muted :=
      map_modify fun state _ => hmuted state
    exact congrArg (fun segments => { e.muted with segments }) hsegments

theorem alike_retain (s : Segment) : Alike X Y s.retain := by
  rw [retain]
  refine .get_bind (fun e => .ite (.pure _) (.bind ?_ fun _ => .pure _)) fun e => ?_
  · exact alike_updateSegment s (fun _ => rfl) fun _ => rfl
  · rw [Engine.refs_muted]

theorem follows_closeReader (s : Segment) : Follows X s.closeReader := by
  intro e he
  -- The reader's own fault shows in the result only, not in the engine that is left behind.
  change (Engine.muting X).Holds (s.closeReader e).2 ∧ (s.closeReader e.muted).2 = _
  rw [closeReader_snd, closeReader_snd]
  have hclose : Alike X (fun _ => False) (modify (·.updateSegment s fun state =>
      { state with reader := state.reader.close.1 }) : Act PUnit) :=
    alike_updateSegment s (fun _ => rfl) fun _ => rfl
  exact hclose.follows e he

theorem alike_release (s : Segment) : Alike X Y s.release := by
  rw [release]
  refine .get_bind (fun e => ?_) fun e => by rw [Engine.refs_muted]
  have hdrop : Alike X Y (do
      modify (·.updateSegment s fun state => { state with refs := state.refs - 1 })
      if e.refs s = 1 then
        Act.quietly s.closeReader
        Act.quietly s.file.release) := by
    refine .bind (alike_updateSegment s (fun _ => rfl) fun _ => rfl) fun _ => .ite ?_ (.pure _)
    exact .bind (.quietly (follows_closeReader s)) fun _ =>
      .quietly (DataFile.alike_release s.file).follows
  exact .ite (.bind (.throw _) fun _ => hdrop) hdrop

theorem alike_releaseAll (segments : List Segment) : Alike X Y (releaseAll segments) :=
  .allQuietly (fun s => (alike_release s).follows) segments

end Segment

namespace Cursor

theorem muted_eq_self {c : Cursor} (h : c.source.closeFault = none) : c.muted = c := by
  rcases c with ⟨extent, ⟨rest, closeFault, origin⟩ | _ | _ | _, ahead, exhausted, closes⟩
  case tokens =>
    obtain rfl : closeFault = none := h
    rfl
  all_goals rfl

theorem alike_openMuted {c : Cursor} {Y : Fault → Engine → Prop} (hc : c.ClosesIn X)
    (e : Engine) : (Engine.muting X).Alike Y c.openAs c.muted.openAs e := by
  intro he
  rw [ensures_openAs]
  refine .inr ⟨⟨he.1, fun i d hd => ?_⟩, ?_⟩
  · rw [Array.getElem?_push] at hd
    split at hd
    · cases hd
      exact hc
    · exact he.2 i d hd
  · rw [ensures_openAs]
    change Except.ok (e.cursors.map Cursor.muted).size = _ ∧ Engine.mk .. = Engine.mk ..
    rw [Array.size_map, Array.map_push]
    exact ⟨rfl, rfl⟩

theorem alike_openAs {c : Cursor} (h : c.source.closeFault = none) : Alike X Y c.openAs := by
  intro e
  have hc : c.ClosesIn X := by
    intro f hf
    rw [h] at hf
    cases hf
  have hopen := alike_openMuted (Y := fun f _ => Y f) hc e
  rwa [muted_eq_self h] at hopen

theorem alike_state_bind {α : Type} {id : CursorId} {next : Cursor → Act α}
    (h : ∀ c, Alike X Y (next c)) (hmuted : ∀ c : Cursor, next c.muted = next c) :
    Alike X Y (state id >>= next) := by
  intro e he
  have hstate : e.muted.cursors.getD id .empty = (e.cursors.getD id .empty).muted :=
    Pull.getD_muted e.cursors id
  have hnext := h (e.cursors.getD id .empty) e he
  rw [ensures_state_bind]
  refine hnext.mono ?_
  rintro r e₁ (hout | ⟨he₁, hsame⟩)
  · exact .inl hout
  · refine .inr ⟨he₁, ensures_state_bind.2 ?_⟩
    change Ensures (next (e.muted.cursors.getD id .empty)) e.muted _
    rw [hstate, hmuted]
    exact hsame

theorem alike_countClose (id : CursorId) : Alike X Y (countClose id) :=
  .pull fun _ _ => Pull.alike_update fun _ _ => ⟨rfl, rfl⟩

theorem closes_closeSource {depth : Nat} (h : ∀ id, Closes X (closeWithin depth id)) {c : Cursor}
    (hc : c.ClosesIn X) {e : Engine} (he : (Engine.muting X).Holds e) :
    Ensures (closeSource depth c) e fun r e₁ => (∀ f, r = .error f → X f) ∧
      (Engine.muting X).Holds e₁ ∧ Ensures (closeSource depth c.muted) e.muted fun r' e' =>
        r' = .ok () ∧ e' = e₁.muted := by
  have hchildren : ∀ children, Closes X
      (if c.closes = 0 then Act.all (closeWithin depth) children else return) := by
    intro children
    split
    · exact .all h children
    · exact .pure
  rcases c with ⟨extent, source, ahead, exhausted, closes⟩
  cases source with
  | tokens rest closeFault origin =>
    cases closeFault with
    | none => exact Closes.pure e he
    | some f =>
      refine ⟨?_, he, rfl, rfl⟩
      rintro _ ⟨⟩
      exact hc f rfl
  | union children => exact hchildren children e he
  | intersection children => exact hchildren children e he
  | «matches» merged segments =>
    have hmatches : Closes X (if closes = 0 then do
        let result ← Act.attempt (closeWithin depth merged)
        Segment.releaseAll segments
        Act.settle result
      else return) := by
      split
      · exact (h merged).attempt_settle (Segment.alike_releaseAll segments).follows
          (Act.allQuietly_fst _ _)
      · exact .pure
    exact hmatches e he

theorem closes_closeWithin (depth : Nat) (id : CursorId) : Closes X (closeWithin depth id) := by
  induction depth generalizing id with
  | zero => exact .pure
  | succ depth ih =>
    intro e he
    obtain ⟨hholds, hmuted⟩ := (alike_countClose id).follows e he
    simp only [ensures_closeWithin]
    -- The cursor is looked at before the call is counted, in both engines.
    have hcursor : e.muted.cursors.getD id .empty = (e.cursors.getD id .empty).muted :=
      Pull.getD_muted e.cursors id
    rw [hcursor]
    have hstep := closes_closeSource ih (c := e.cursors.getD id .empty) ?_ hholds
    · rw [← hmuted] at hstep
      exact hstep
    · rw [Array.getD_eq_getD_getElem?]
      cases hc : e.cursors[id]? with
      | none =>
        rintro _ ⟨⟩
      | some c => exact he.2 id c hc

theorem closes_close (id : CursorId) : Closes X (close id) := closes_closeWithin (id + 1) id

theorem closes_closeAll (ids : List CursorId) : Closes X (closeAll ids) := .all closes_close ids

theorem alike_closeQuietly (ids : List CursorId) : Alike X Y (closeQuietly ids) :=
  .allQuietly (fun id => (closes_close id).follows) ids

end Cursor
end SecondaryIndex
