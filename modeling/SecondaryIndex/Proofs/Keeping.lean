import SecondaryIndex.Proofs.Candidates
import SecondaryIndex.Proofs.Loan.Running
import SecondaryIndex.Proofs.Operation
import SecondaryIndex.Proofs.Selecting

namespace SecondaryIndex

open Act

variable {e e' : Engine}

theorem Engine.columnIndexOn_some {e : Engine} {column : String} {id : IndexId}
    {index : ColumnIndex} (h : e.columnIndexOn? column = some (id, index)) :
    e.indexes[id]? = some index := by
  simp only [columnIndexOn?, Option.bind_eq_bind, Option.bind_eq_some_iff, Option.pure_def,
    Option.some.injEq, Prod.mk.injEq] at h
  obtain ⟨_, -, _, hindex, rfl, rfl⟩ := h
  exact hindex

/-- The next snapshot is made from the selected segments. -/
theorem Snapshot.ensures_update (type : ValueType) (current : List Segment)
    (dropped : List DataFile) (added : List Segment) (e : Engine) :
    Ensures (Snapshot.update type current dropped added TermRanges.build) e fun r e' => Frame e e' ∧
      ∀ v, r = .ok v →
        Snapshot.build type (Snapshot.select (Snapshot.leaves e dropped) (current ++ added)).kept
          TermRanges.build = .ok v := by
  rw [Snapshot.update, ensures_get_bind, ensures_settle_bind]
  cases hbuild : Snapshot.build type
      (Snapshot.select (Snapshot.leaves e dropped) (current ++ added)).kept TermRanges.build with
  | error f =>
    refine ⟨.refl e, ?_⟩
    rintro _ ⟨⟩
  | ok snapshot =>
    refine ((Segment.framed_releaseAll _).frame e).bind (fun _ e₁ hf => ⟨hf, fun _ hv => hv⟩) ?_
    refine fun _ _ hf => ⟨hf, ?_⟩
    rintro _ ⟨⟩

namespace Loan

/-- A session that only gains groups holds at least what it held. -/
theorem Grows.fewer {id : SessionId} (h : Grows id e e') (hpublished : e'.published = e.published)
    (hhandles : e'.handles = e.handles) : e.Fewer e' := by
  obtain ⟨groups, hs⟩ := h.sessions
  refine ⟨fun _ _ hi => hpublished ▸ hi, fun _ hi => hhandles ▸ hi, fun k s hk g hg => ?_⟩
  rw [hs, Array.getElem?_modify, hk]
  by_cases hid : id = k
  · subst hid
    have hkeys := h.keys g
    simp only [Engine.session, hs, Array.getD_eq_getD_getElem?, Array.getElem?_modify, hk, if_true,
      Option.map_some, Option.getD_some] at hkeys
    exact ⟨_, by rw [if_pos rfl, Option.map_some], hkeys hg⟩
  · exact ⟨s, by rw [if_neg hid], hg⟩

theorem allows_true (e : Engine) : Allows (fun _ => True) e :=
  fun _ _ _ _ _ _ _ _ _ _ _ => trivial

end Loan

/-- Live files, columns and indexes are the same. -/
structure SameContents (e e' : Engine) : Prop where
  live : e'.live = e.live
  schema : e'.schema = e.schema
  indexes : e'.indexes = e.indexes

theorem Frame.sameContents (hf : Frame e e') : SameContents e e' :=
  ⟨hf.live, hf.schema, hf.indexes⟩

/-- What every change of live files, columns or indexes keeps. -/
structure Upkeep (I : Engine → Prop) : Prop where
  replace : ∀ {e : Engine} removed added, I e →
    I { e with live := BaseTable.replaced e.live removed added }
  register : ∀ {e : Engine} column type, I e → e.schema.get? column = none →
    I { e with schema := e.schema.insert column type }
  create : ∀ {e : Engine} column type, I e → e.schema.get? column = some type →
    e.indexOn? column = none → I { e with
      indexes := e.indexes.push (.create column type)
      published := e.published.insert column e.indexes.size }
  enter : ∀ {e : Engine} {id index} value token memtable, I e → e.indexes[id]? = some index →
    index.memtable.add value token = .ok memtable →
      I (e.updateIndex id fun index => { index with memtable })
  attach : ∀ {e : Engine} {id index} leaves segments snapshot, I e → e.indexes[id]? = some index →
    Snapshot.build index.type (Snapshot.select leaves (index.snapshot.segments ++ segments)).kept
      TermRanges.build = .ok snapshot → I (e.updateIndex id fun index => { index with snapshot })

/-- A property of an engine that nothing done to it breaks. When indexes lose holders, it has to
hold again once they are reclaimed. If `free` holds, then whoever names an index may come to hold
it, and otherwise only who has a handle on it. -/
structure Invariant (free : Prop) (I : Engine → Prop) : Prop extends Upkeep I where
  gains : ∀ {e e' : Engine}, I e → SameContents e e' → e'.published = e.published → e.Fewer e' →
    (∀ i, e'.holds i = true → e.holds i = true ∨ free) → I e'
  loses : ∀ {e e' : Engine}, I e → SameContents e e' → e'.Fewer e →
    Ensures Catalog.reclaim e' fun _ e'' => I e''

namespace Invariant

variable {free : Prop} {I : Engine → Prop}

theorem same (h : Invariant free I) (he : I e) (hcontents : SameContents e e')
    (hholders : SameHolders e e') : I e' :=
  h.gains he hcontents hholders.published hholders.fewer fun i hi =>
    .inl ((hholders.holds_eq i).symm.trans hi)

theorem frame (h : Invariant free I) (he : I e) (hf : Frame e e') : I e' :=
  h.same he hf.sameContents hf.sameHolders

theorem framed (h : Invariant free I) {α : Type} {act : Act α} (hact : Framed act) : Keeps I act :=
  fun e he => (hact.frame e).mono fun _ _ hf => h.frame he hf

theorem keeps_register (h : Invariant free I) (column : String) (type : Option ValueType) :
    Keeps I (Catalog.register column type) := by
  intro e he
  rw [Catalog.register]
  split
  · exact he
  rw [ensures_get_bind]
  split
  · exact he
  · exact he
  next hnone => exact h.register column _ he hnone

theorem keeps_createIndex (h : Invariant free I) (column : String) :
    Keeps I (Catalog.createIndex column) := by
  intro e he
  rw [Catalog.createIndex, ensures_get_bind]
  split
  · exact he
  · exact he
  next htype hnone =>
    rw [ensures_set_bind, ensures_pure]
    exact h.create column _ he htype hnone

theorem keeps_dropIndex (h : Invariant free I) (column : String) :
    Keeps I (Catalog.dropIndex column) := by
  intro e he
  rw [Catalog.dropIndex, ensures_get_bind]
  split
  · exact he
  · rw [ensures_modify_bind]
    have hfewer : Engine.Fewer { e with published := e.published.erase column } e := by
      refine .of_sessions rfl (fun other i hi => ?_) fun _ hi => hi
      rw [Std.TreeMap.getElem?_erase] at hi
      split at hi
      · cases hi
      · exact hi
    have hcontents : SameContents e { e with published := e.published.erase column } :=
      ⟨rfl, rfl, rfl⟩
    exact (h.loses he hcontents hfewer).bind (fun _ _ h => h) fun _ _ h => h

theorem keeps_column (h : Invariant free I) (name : String) :
    Keeps I (Catalog.column name) := by
  intro e he
  rw [Catalog.column, ensures_get_bind, ensures_set_bind, ensures_pure]
  refine h.gains he ⟨rfl, rfl, rfl⟩ rfl
    (.of_sessions rfl (fun _ _ hi => hi) fun _ hi => List.mem_append_right _ hi) fun i hi => .inl ?_
  -- The index that is handed out is on its column, so it was held before.
  rw [Engine.holds_iff] at hi ⊢
  rcases hi with hi | hi | hi
  · exact .inl hi
  · rcases List.mem_append.1 hi with hi | hi
    · refine .inl ⟨name, ?_⟩
      simp only [Engine.column?, Option.mem_toList, Option.bind_eq_some_iff,
        Option.map_eq_some_iff] at hi
      obtain ⟨_, ⟨_, -, rfl⟩, hi⟩ := hi
      exact hi
    · exact .inr (.inl hi)
  · exact .inr (.inr hi)

theorem keeps_share (h : Invariant free I) (id : IndexId) : Keeps I (Catalog.share id) := by
  intro e he
  rw [Catalog.share, ensures_modify]
  split
  next hid =>
    have hfewer : Engine.Fewer { e with handles := id :: e.handles } e :=
      .of_sessions rfl (fun _ _ hi => hi) (List.forall_mem_cons.2 ⟨hid, fun _ hi => hi⟩)
    have hmore : e.Fewer { e with handles := id :: e.handles } :=
      .of_sessions rfl (fun _ _ hi => hi) fun _ hi => List.mem_cons_of_mem _ hi
    exact h.gains he ⟨rfl, rfl, rfl⟩ rfl hmore fun _ hi => .inl (hfewer.holds hi)
  next => exact he

theorem keeps_letGo (h : Invariant free I) (id : IndexId) : Keeps I (Catalog.letGo id) := by
  intro e he
  rw [Catalog.letGo, ensures_modify_bind]
  exact h.loses he ⟨rfl, rfl, rfl⟩
    (.of_sessions rfl (fun _ _ hi => hi) fun _ hi => List.mem_of_mem_erase hi)

theorem keeps_shutdown (h : Invariant free I) : Keeps I Catalog.shutdown := by
  intro e he
  rw [Catalog.shutdown, ensures_modify_bind]
  refine h.loses he ⟨rfl, rfl, rfl⟩ (.of_sessions rfl (fun column i hi => ?_) fun _ hi => hi)
  rw [Std.TreeMap.getElem?_emptyc] at hi
  cases hi

theorem keeps_enter (h : Invariant free I) (token : Token) (column : String) (value : Bytes) :
    Keeps I (Catalog.enter token column value) := by
  intro e he
  rw [Catalog.enter, ensures_get_bind]
  cases hon : e.columnIndexOn? column with
  | none => exact he
  | some p =>
    obtain ⟨id, index⟩ := p
    simp only [ensures_settle_bind]
    cases hadd : index.memtable.add value token with
    | error f => exact he
    | ok memtable =>
      simp only [ensures_modify_bind, ensures_pure]
      exact h.enter value token memtable he (Engine.columnIndexOn_some hon) hadd

theorem keeps_attach (h : Invariant free I) (column : String) (dropped : List DataFile)
    (segments : List Segment) : Keeps I (Catalog.attach column dropped segments) := by
  intro e he
  rw [Catalog.attach, ensures_get_bind]
  cases hon : e.columnIndexOn? column with
  | none => exact ((h.framed (Segment.framed_releaseAll _)).bind fun _ => .pure _) e he
  | some p =>
    obtain ⟨id, index⟩ := p
    refine (Snapshot.ensures_update index.type index.snapshot.segments dropped segments
      e).attempt_bind ?_
    rintro (f | snapshot) e₁ ⟨hf, hbuilt⟩
    · refine ((h.framed (Segment.framed_releaseAll _)).bind fun _ => .pure _) e₁ ?_
      exact h.frame he hf
    · simp only [ensures_modify_bind, ensures_pure]
      refine h.attach _ segments snapshot (h.frame he hf) ?_
        (hbuilt snapshot rfl)
      rw [hf.indexes, Engine.columnIndexOn_some hon]

theorem keeps_replace (h : Invariant free I) (removed added : List DataFile) :
    Keeps I (BaseTable.replace removed added) := by
  intro e he
  rw [BaseTable.replace, ensures_get_bind, ensures_modify_bind]
  exact h.framed (BaseTable.framed_retire _) _ (h.replace removed added he)

theorem joined (h : Invariant free I) {r : Except Fault SessionId} (he : I e)
    (hjoined : Loan.Joined e r e') : I e' := by
  obtain ⟨files, s, -, rfl, hgroups, -⟩ := hjoined
  have hfewer : Engine.Fewer { e with files, sessions := e.sessions.push s } e := by
    refine ⟨fun _ _ hi => hi, fun _ hi => hi, fun k s' hk g hg => ?_⟩
    rw [Array.getElem?_push] at hk
    split at hk
    · cases hk
      rw [hgroups] at hg
      cases hg
    · exact ⟨s', hk, hg⟩
  exact h.gains he ⟨rfl, rfl, rfl⟩ rfl (Loan.fewer_push e files s) fun _ hi =>
    .inl (hfewer.holds hi)

theorem keeps_openAt (h : Invariant free I) (now : Duration) (range : Option KeyRange)
    (quota : Int64) : Keeps I (Session.openAt now range quota) := fun e he =>
  (Loan.ensures_openAt now range quota e).mono fun _ _ hjoined => h.joined he hjoined

/-- Groups may be opened by who has handles on their indexes. -/
theorem opened (h : Invariant free I) {id : SessionId} {gs : List Group} (he : I e)
    (hbuilt : Loan.Built (fun _ => True) id e e e' [] []) (hopening : Opening id gs e e')
    (hgs : ∀ i ∈ gs.flatMap Group.indexes, i ∈ e.handles ∨ free) :
    I e' ∧ e'.handles = e.handles := by
  have hsame := hbuilt.held.untouched
  refine ⟨h.gains he ⟨hsame.live, hsame.schema, hsame.indexes⟩ hsame.published
    (hbuilt.grows.fewer hsame.published hsame.handles) fun i hi => ?_, hsame.handles⟩
  rcases hopening.holds hbuilt.grows hsame.published hsame.handles hi with hi | hi
  · exact .inl hi
  · exact (hgs i (List.mem_flatMap.2 hi)).imp_left fun hi => Engine.holds_iff.2 (.inr (.inl hi))

theorem plan (h : Invariant free I) (id : SessionId) (connective : Connective)
    {group : Group} (he : I e) (hgroup : ∀ i ∈ group.indexes, i ∈ e.handles ∨ free) :
    Ensures (Session.plan id connective group) e fun _ e' => I e' := by
  refine ((Loan.plan (Loan.Borrowed.start (fun _ => True) e) (Loan.allows_true e)).and
    (Session.opensOnly_plan id connective group e)).mono ?_
  rintro r e' ⟨⟨hbuilt, -⟩, hopening⟩
  refine (h.opened he hbuilt hopening ?_).1
  rwa [List.flatMap_cons, List.flatMap_nil, List.append_nil]

theorem build (h : Invariant free I) (id : SessionId) {q : Query} (he : I e)
    (hq : ∀ i ∈ q.groups.flatMap Group.indexes, i ∈ e.handles ∨ free) :
    Ensures (q.build id) e fun _ e' => I e' ∧ e'.handles = e.handles := by
  refine ((Loan.build q (Loan.Borrowed.start (fun _ => True) e) (Loan.allows_true e)).and
    (Query.opensOnly_build q e)).mono ?_
  rintro r e' ⟨⟨hbuilt, -⟩, hopening⟩
  exact h.opened he hbuilt hopening hq

/-- Changing anything of a session but its groups. -/
theorem keeps_update (h : Invariant free I) {id : SessionId} {change : Session → Session}
    (hchange : ∀ s, (change s).groups = s.groups) : Keeps I (Session.update id change) := by
  intro e he
  have hmore : e.Fewer (e.updateSession id change) := by
    refine ⟨fun _ _ hi => hi, fun _ hi => hi, fun k s hk g hg => ?_⟩
    rw [Engine.updateSession, Array.getElem?_modify, hk]
    split
    · exact ⟨change s, rfl, by rwa [hchange]⟩
    · exact ⟨s, rfl, hg⟩
  have hfewer : (e.updateSession id change).Fewer e :=
    .of_updateSession e id fun s g hg => hchange s ▸ hg
  exact h.gains he ⟨rfl, rfl, rfl⟩ rfl hmore fun _ hi => .inl (hfewer.holds hi)

theorem keeps_release (h : Invariant free I) (id : SessionId) (group : Group) :
    Keeps I (Session.release id group) := by
  intro e he
  rw [Session.release, Loan.ensures_sessionState_bind]
  split
  · exact he
  · rw [Session.update, ensures_modify_bind]
    have hfewer : Engine.Fewer (e.updateSession id fun s =>
        { s with groups := s.groups.erase group }) e := by
      refine .of_updateSession e id fun s g hg => ?_
      rw [Loan.mem_keys_iff, Std.TreeMap.getKey?_erase] at hg
      split at hg
      · cases hg
      · exact Loan.mem_keys_iff.2 hg
    have hcontents : SameContents e (e.updateSession id fun s =>
        { s with groups := s.groups.erase group }) := ⟨rfl, rfl, rfl⟩
    refine (h.loses he hcontents hfewer).bind (fun _ e' he' => ?_) fun _ _ he' => he'
    exact h.framed (Cursor.framed_closeQuietly _) e' he'

theorem keeps_finish (h : Invariant free I) (id : SessionId) :
    Keeps I (Session.finish id) := by
  have hmark : Keeps I (Session.update id fun s => { s with finished := true }) :=
    h.keeps_update fun _ => rfl
  have hclear : Keeps I (Session.update id fun s => { s with scope := [] }) :=
    h.keeps_update fun _ => rfl
  have hreleaseAll : ∀ groups, Keeps I (Session.releaseAll id groups) := by
    intro groups
    induction groups with
    | nil => exact .pure _
    | cons group rest ih => exact (h.keeps_release id group).bind fun _ => ih
  intro e he
  rw [Session.finish, Loan.ensures_sessionState_bind]
  refine Keeps.ite (.pure _) ?_ e he
  exact hmark.bind fun _ => (hreleaseAll _).bind fun _ =>
    (h.framed (DataFile.framed_releaseAll _)).bind fun _ => hclear

theorem keeps_releaseQuery (h : Invariant free I) (id : SessionId) (q : Query) :
    Keeps I (q.release id) := by
  induction q with
  | absent => exact .pure _
  | node _ group left right ihl ihr =>
    rw [Query.release]
    have hrest := ihl.bind fun _ => ihr
    exact .ite ((h.keeps_release id group).bind fun _ => hrest) hrest

theorem run (h : Invariant free I) (r : Query.Request) (he : I e)
    (hr : ∀ i ∈ r.query.groups.flatMap Group.indexes, i ∈ e.handles ∨ free) : I (r.run e).2 := by
  refine Loan.ensures_inOwnSession (I := fun _ e' => I e' ∧ e'.handles = e.handles) r
    { engine := e } he ?_ (fun _ => Loan.steady_inSession r ?_ ?_) ?_
  · intro e₁ hjoined
    refine ⟨h.joined he hjoined, ?_⟩
    obtain ⟨files, s, -, rfl, -⟩ := hjoined
    rfl
  · rintro e' cursors ⟨he', hhandles⟩ -
    exact ⟨h.frame he' ⟨rfl, rfl, rfl, rfl, rfl, rfl⟩, hhandles⟩
  · rintro e' ⟨he', hhandles⟩
    refine (h.build _ he' fun i hi => hhandles ▸ hr i hi).mono ?_
    exact fun _ _ he'' => ⟨he''.1, he''.2.trans hhandles⟩
  · exact fun _ e₂ _ he₂ => h.keeps_finish _ e₂ he₂.1

theorem effect (h : Invariant free I) (op : Operation) (e : Engine) (he : I e)
    (huses : ∀ i ∈ op.uses, i ∈ e.handles ∨ free) : I (op.effect e) := by
  cases hstructural : op.structural with
  | false => exact h.frame he (Operation.frame_effect hstructural e)
  | true =>
    cases op with
    | replaceFiles removed added => exact h.keeps_replace removed added e he
    | register column type => exact h.keeps_register column type e he
    | createIndex column => exact h.keeps_createIndex column e he
    | dropIndex column => exact h.keeps_dropIndex column e he
    | takeColumn name => exact h.keeps_column name e he
    | shareIndex id => exact h.keeps_share id e he
    | letIndexGo id => exact h.keeps_letGo id e he
    | enter token column value => exact h.keeps_enter token column value e he
    | attach column dropped segments => exact h.keeps_attach column dropped segments e he
    | shutdownCatalog => exact h.keeps_shutdown e he
    | openSession now range quota => exact h.keeps_openAt now range quota e he
    | plan id connective group => exact h.plan id connective he huses
    | releaseGroup id group => exact h.keeps_release id group e he
    | finish id => exact h.keeps_finish id e he
    | build id q => exact (h.build id he huses).mono fun _ _ he' => he'.1
    | releaseQuery id q => exact h.keeps_releaseQuery id q e he
    | run r => exact h.run r he huses
    | _ => cases hstructural

end Invariant
end SecondaryIndex
