import SecondaryIndex.Proofs.Account.Ledger

namespace SecondaryIndex.Ledger.Covers

open Loan

variable {l : Ledger} {extra : List DataFile} {e e' : Engine} {id : SessionId}

theorem createFile (h : l.Covers [] e) (generation : Nat) (path : String) (minKey maxKey : Token) :
    Ensures (DataFile.create generation path minKey maxKey) e fun r e' => ∃ f, r = .ok f ∧
      ({ l with files := l.files ++ [f], fresh := f :: l.fresh } : Ledger).Covers [] e' := by
  refine ⟨⟨e.files.size, generation, path, minKey, maxKey⟩, rfl, ?_⟩
  generalize hf : (⟨e.files.size, generation, path, minKey, maxKey⟩ : DataFile) = f
  have hid : f.id = e.files.size := by rw [← hf]
  have hnew : f ∉ e.live ++ l.fresh := fun hmem => by
    have hlt := h.balanced.file_lt (h.balanced.keepers f (by
      rw [List.nil_append]
      exact List.mem_append_left _ hmem))
    omega
  refine { h with balanced := ?_, single := ?_ }
  · refine (h.balanced.createFile hid).perm (.refl _) ?_
    rw [List.nil_append, List.nil_append, List.append_assoc, List.append_assoc, List.cons_append]
    exact List.perm_middle.symm
  · exact List.perm_middle.nodup_iff.2 (List.nodup_cons.2 ⟨hnew, h.single⟩)

theorem mem_replaced {live removed added : List DataFile} {f : DataFile} :
    f ∈ BaseTable.replaced live removed added ↔ (f ∈ live ∧ f ∉ removed) ∨ f ∈ added := by
  have hfold : ∀ (added next : List DataFile),
      f ∈ added.foldl (fun next f => if f ∈ next then next else next ++ [f]) next ↔
        f ∈ next ∨ f ∈ added := by
    intro added
    induction added with
    | nil => simp
    | cons g rest ih =>
      intro next
      rw [List.foldl_cons, ih]
      split
      next hg =>
        rw [List.mem_cons]
        refine ⟨fun h => h.imp_right .inr, ?_⟩
        rintro (h | rfl | h)
        · exact .inl h
        · exact .inl hg
        · exact .inr h
      next => rw [List.mem_append, List.mem_singleton, List.mem_cons, or_assoc]
  rw [BaseTable.replaced, hfold, List.mem_filter, decide_eq_true_eq]

theorem nodup_replaced {live removed added : List DataFile} (h : live.Nodup) :
    (BaseTable.replaced live removed added).Nodup := by
  have hfold : ∀ (added next : List DataFile), next.Nodup →
      (added.foldl (fun next f => if f ∈ next then next else next ++ [f]) next).Nodup := by
    intro added
    induction added with
    | nil => exact fun _ h => h
    | cons g rest ih =>
      intro next hnext
      rw [List.foldl_cons]
      refine ih _ ?_
      split
      next => exact hnext
      next hg =>
        exact (List.perm_append_singleton g next).nodup_iff.2 (List.nodup_cons.2 ⟨hg, hnext⟩)
  exact hfold added _ (h.filter _)

theorem perm_replaced {live fresh removed added : List DataFile} (hsingle : (live ++ fresh).Nodup)
    (hremoved : removed.Nodup) (hadded : ∀ f ∈ added, f ∈ fresh) :
    (live ++ fresh).Perm (removed.filter (· ∈ live) ++
      (BaseTable.replaced live removed added ++ fresh.filter (· ∉ added))) := by
  have hdisjoint : ∀ f ∈ live, f ∉ fresh := fun f hf hf' =>
    List.disjoint_of_nodup_append hsingle hf hf'
  refine (List.perm_ext_iff_of_nodup hsingle ?_).2 fun f => ?_
  · rw [List.nodup_append', List.nodup_append']
    refine ⟨hremoved.filter _, ⟨nodup_replaced hsingle.of_append_left,
      hsingle.of_append_right.filter _, fun f hf hf' => ?_⟩, fun f hf hf' => ?_⟩
    · rw [mem_replaced] at hf
      rw [List.mem_filter, decide_eq_true_eq] at hf'
      exact hf.elim (fun hf => hdisjoint f hf.1 hf'.1) hf'.2
    · rw [List.mem_filter, decide_eq_true_eq] at hf
      rw [List.mem_append, mem_replaced, List.mem_filter] at hf'
      rcases hf' with (⟨-, hf'⟩ | hf') | ⟨hf', -⟩
      · exact hf' hf.1
      · exact hdisjoint f hf.2 (hadded f hf')
      · exact hdisjoint f hf.2 hf'
  · rw [List.mem_append, List.mem_append, List.mem_append, List.mem_filter, mem_replaced,
      List.mem_filter, decide_eq_true_eq, decide_eq_true_eq]
    by_cases hadd : f ∈ added
    · simp [hadd, hadded f hadd]
    · by_cases hrem : f ∈ removed <;> simp [hadd, hrem]

/-- The table gets the new files and gives back the old ones. -/
theorem replace (h : l.Covers extra e) {removed added : List DataFile} (hremoved : removed.Nodup)
    (hadded : ∀ f ∈ added, f ∈ l.fresh) :
    Ensures (BaseTable.replace removed added) e fun _ e' =>
      ({ l with fresh := l.fresh.filter (· ∉ added) } : Ledger).Covers extra e' := by
  have hperm := perm_replaced h.single hremoved hadded
  generalize hnext : BaseTable.replaced e.live removed added = next at hperm
  generalize l.fresh.filter (· ∉ added) = fresh at hperm
  rw [BaseTable.replace, ensures_get_bind, ensures_modify_bind]
  have hbalanced : Balanced { e with live := next } l.files l.segments (e.views ++ l.loose)
      (removed.filter (· ∈ e.live) ++ (extra ++ (next ++ fresh ++ e.scopes))) := by
    refine (h.balanced.perm (.refl _) ?_).congr rfl rfl rfl
    refine List.perm_iff_count.2 fun f => ?_
    have hcount := hperm.count_eq f
    simp only [List.count_append] at hcount ⊢
    omega
  rw [hnext]
  refine (Ensures.and ((BaseTable.framed_retire _).frame _) hbalanced.retireFiles).mono ?_
  rintro _ e' ⟨hf, -, -, hb⟩
  refine ⟨?_, ?_, ?_, ?_, ?_, ?_⟩
  · rw [Engine.views, hf.indexes, hf.live, Engine.scopes, hf.sessions]
    exact hb
  · rw [Engine.views, hf.indexes]
    exact h.handed
  · rw [hf.live]
    exact (hperm.nodup_iff.1 h.single).of_append_right
  · exact hf.sessions ▸ h.distinct
  · exact hf.indexes ▸ h.stored
  · intro column i hi
    rw [Engine.Lives, hf.indexes]
    exact h.current column i (hf.published ▸ hi)

theorem createSegment (h : l.Covers extra e) {file : Option DataFile}
    (hfile : ∀ f ∈ file, f ∈ l.files) (reader : Option Reader) (minKey maxKey : Token)
    (minTerm maxTerm : Bytes) :
    Ensures (Segment.create file reader minKey maxKey minTerm maxTerm) e fun
      | .ok s, e' => ({ l with segments := l.segments ++ [s], loose := s :: l.loose } :
          Ledger).Covers extra e'
      | .error _, e' => l.Covers extra e' := by
  refine (Ensures.and ((Segment.framed_create file reader minKey maxKey minTerm maxTerm).frame e)
    (h.balanced.createSegment hfile reader minKey maxKey minTerm maxTerm)).mono ?_
  rintro (f | s) e' ⟨hf, hb⟩
  · exact h.framed hf hb
  have hnew : s ∉ l.segments := (List.nodup_append.1 hb.nodup).2.2 |> fun hne hs =>
    hne s hs s (by simp) rfl
  have hperm : (s :: (e.views ++ l.loose)).Perm (e.views ++ s :: l.loose) := List.perm_middle.symm
  have hviews : e'.views = e.views := by rw [Engine.views, hf.indexes, Engine.views]
  refine ⟨?_, ?_, ?_, ?_, ?_, ?_⟩
  · rw [hviews, hf.live, Engine.scopes, hf.sessions]
    exact hb.perm hperm (.refl _)
  · rw [hviews]
    refine hperm.nodup_iff.1 (List.nodup_cons.2 ⟨fun hs => ?_, h.handed⟩)
    exact hnew (h.balanced.holders s hs)
  · rw [hf.live]
    exact h.single
  · exact hf.sessions ▸ h.distinct
  · intro i index hi
    obtain ⟨hbuilt, hstored⟩ := h.stored i index (hf.indexes ▸ hi)
    exact ⟨hbuilt, fun t ht => List.mem_append_left _ (hstored t ht)⟩
  · intro column i hi
    rw [Engine.Lives, hf.indexes]
    exact h.current column i (hf.published ▸ hi)

def Known (l : Ledger) (segments : List Segment) : Prop :=
  segments.Nodup ∧ ∀ s ∈ segments, s ∈ l.segments

theorem allows (h : l.Covers extra e) : Allows (Known l) e := by
  intro e' hindexes scope connective group cands hcands c hc found hfound
  have hindexed : e'.Indexed := fun i index hi => h.indexed i index (hindexes ▸ hi)
  obtain ⟨hsorted, hdrawn⟩ := (Candidate.drawn_ofGroup hindexed hcands).2 c hc
  refine ⟨(SegmentSet.nodup_of_pairwise hsorted).sublist hfound, fun s hs => ?_⟩
  obtain ⟨-, v, hv, hs⟩ := hdrawn s (hfound.subset hs)
  obtain ⟨i, index, hi, rfl, -⟩ := Candidate.built_of_snapshotFor hindexed hv
  exact (h.stored i index (hindexes ▸ hi)).2 s hs

theorem borrowed {H : List Nat} (h : l.Covers extra e) (hb : Borrowed (Known l) e e' [] H) :
    l.Covers extra e' := by
  have hb' : Borrowed (Known l) { e with sessions := e.sessions } e' [] H := hb
  refine h.framed ?_ (h.balanced.borrowed (fun _ hs => hs) hb')
  have := hb.untouched
  exact ⟨this.live, this.schema, this.published, this.handles, this.indexes, this.sessions⟩

theorem searchSegment (h : l.Covers extra e) (s : Segment) (c : Condition) :
    Ensures (s.search c) e fun _ e' => l.Covers extra e' := by
  refine (Loan.Borrowed.search (.refl (Known l) e) s c).mono ?_
  rintro (f | _ | x) e' hs
  · rwa [show e' = e from hs]
  · rwa [show e' = e from hs]
  · exact h.borrowed hs.1.held

theorem searchMemtable (h : l.Covers extra e) (i : IndexId) (c : Condition) :
    Ensures (Catalog.searchMemtable i c) e fun _ e' => l.Covers extra e' := by
  refine (Loan.Borrowed.searchMemtable (.refl (Known l) e) i c).mono ?_
  rintro (f | _ | x) e' hs
  · rwa [show e' = e from hs]
  · rwa [show e' = e from hs]
  · exact h.borrowed hs.1.held

theorem openTokens (h : l.Covers extra e) (tokens : List Token) (closeFault : Option Fault)
    (origin : Option Nat) : Ensures (Cursor.ofTokens tokens closeFault origin).openAs e
      fun _ e' => l.Covers extra e' := by
  refine (Loan.Borrowed.openTokens (.refl (Known l) e) tokens closeFault origin).mono ?_
  rintro _ e' ⟨-, -, hp, -⟩
  exact h.borrowed hp.held

theorem openMatches (h : l.Covers extra e) (c : Condition) {segments : List Segment}
    (hknown : Known l segments) :
    Ensures (Matches.openAs c none segments) e fun _ e' => l.Covers extra e' := by
  refine (Loan.Borrowed.openAs (H := []) c none (.refl (Known l) e) (by simp) ?_).mono ?_
  · exact fun found hfound => ⟨hknown.1.sublist hfound, fun s hs => hknown.2 s (hfound.subset hs)⟩
  · rintro (f | _ | x) e' hs
    · exact h.borrowed hs.held
    · exact h.borrowed hs.held
    · exact h.borrowed hs.1.held

theorem closeCursor (h : l.Covers extra e) (x : Nat) :
    Ensures (Cursor.close x) e fun _ e' => l.Covers extra e' :=
  (Ensures.and ((Cursor.framed_close x).frame e) (h.balanced.closeWithin (x + 1) x)).mono
    fun _ _ ⟨hf, hb⟩ => h.framed hf hb

theorem closeAll (h : l.Covers extra e) (ids : List Nat) :
    Ensures (Cursor.closeAll ids) e fun _ e' => l.Covers extra e' :=
  Act.ensures_all (I := fun _ e' => l.Covers extra e') h fun x _ _ h' => h'.closeCursor x

theorem closeQuietly (h : l.Covers extra e) (ids : List Nat) :
    Ensures (Cursor.closeQuietly ids) e fun _ e' => l.Covers extra e' :=
  Act.ensures_allQuietly (I := fun _ e' => l.Covers extra e') h fun x _ _ h' => h'.closeCursor x

theorem reclaimCursors (h : l.Covers extra e) (held : List Nat) :
    Ensures (Cursor.reclaim held) e fun _ e' => l.Covers extra e' := by
  rw [Cursor.reclaim, ensures_get_bind]
  exact h.closeQuietly _

theorem unmoved (h : l.Covers extra e) {cursors : Array Cursor} (hs : Stills e.cursors cursors) :
    l.Covers extra { e with cursors } :=
  h.framed ⟨rfl, rfl, rfl, rfl, rfl, rfl⟩ (h.balanced.stills hs)

theorem openMerge (h : l.Covers extra e) {c : Cursor} (hc : c.source.Plain) :
    Ensures c.openAs e fun _ e' => l.Covers extra e' := by
  rw [Cursor.ensures_openAs]
  exact h.borrowed ((Borrowed.refl (Known l) e).pushPlain hc).held

theorem buildMerge (h : l.Covers extra e) (m : Merge) :
    Ensures m.build e fun _ e' => l.Covers extra e' := by
  rw [Merge.build]
  split
  · exact h
  · exact h
  rw [ensures_map]
  suffices hcombine : Ensures m.combine e fun _ e' => l.Covers extra e' by
    refine hcombine.mono ?_
    rintro (f | x) e' h' <;> exact h'
  rw [Merge.combine]
  split
  · exact h.openMerge (.union _)
  split
  · exact (h.closeAll m.inputs).bind (fun _ _ h' => h'.openTokens [] none none) fun _ _ h' => h'
  · exact h.openMerge (.intersection _)

theorem scopes_updateSession {s : Session} (hs : e.sessions[id]? = some s)
    (change : Session → Session) : ∃ rest, e.scopes.Perm (s.pins ++ rest) ∧
      (e.updateSession id change).scopes.Perm ((change s).pins ++ rest) := by
  have hs' : e.sessions.toList[id]? = some s := by rwa [Array.getElem?_toList]
  obtain ⟨rest, h, h'⟩ := drop_modify_flatMap (g := Session.pins) change (Nat.zero_le id) hs'
    fun _ => rfl
  refine ⟨rest, h, ?_⟩
  rw [Engine.scopes, Engine.updateSession, Array.toList_modify]
  exact h'

theorem updateSession_of_none (hs : e.sessions[id]? = none) (change : Session → Session) :
    e.updateSession id change = e := by
  rw [Engine.updateSession, modify_of_none hs]

theorem updateSession {s : Session} {change : Session → Session} {released : List DataFile}
    (h : l.Covers extra e) (hs : e.sessions[id]? = some s)
    (hpins : s.pins.Perm (released ++ (change s).pins)) (hscope : (change s).scope.Nodup) :
    l.Covers (released ++ extra) (e.updateSession id change) := by
  obtain ⟨rest, hold, hnew⟩ := scopes_updateSession hs change
  refine { h with balanced := (h.balanced.perm (.refl _) ?_).congr rfl rfl rfl, distinct := ?_ }
  · refine List.perm_iff_count.2 fun f => ?_
    change _ = (released ++ extra ++ (e.live ++ l.fresh ++ _)).count f
    have h₁ := hold.count_eq f
    have h₂ := hnew.count_eq f
    have h₃ := hpins.count_eq f
    simp only [List.count_append] at h₁ h₂ h₃ ⊢
    omega
  · intro k t ht
    rw [Engine.updateSession, Array.getElem?_modify] at ht
    split at ht
    next hk =>
      rw [← hk, hs] at ht
      cases ht
      exact hscope
    next => exact h.distinct k t ht

theorem regroup (h : l.Covers extra e) (change : Session → Session)
    (hfinished : ∀ s, (change s).finished = s.finished) (hscope : ∀ s, (change s).scope = s.scope) :
    l.Covers extra (e.updateSession id change) := by
  cases hs : e.sessions[id]? with
  | none =>
    rw [updateSession_of_none hs]
    exact h
  | some s =>
    have hpins : (change s).pins = s.pins := by
      rw [Session.pins, hfinished, hscope, Session.pins]
    have hscope' : (change s).scope.Nodup := hscope s ▸ h.distinct id s hs
    have hpins' : s.pins.Perm ([] ++ (change s).pins) := by rw [hpins, List.nil_append]
    exact h.updateSession hs hpins' hscope'

theorem built (h : l.Covers extra e) (hb : Built (Known l) id e e e' [] []) :
    l.Covers extra e' := by
  obtain ⟨groups, hs⟩ := hb.grows.sessions
  have hregroup : l.Covers extra { e with sessions := e'.sessions } := by
    rw [hs]
    exact h.regroup (fun s => { s with groups }) (fun _ => rfl) fun _ => rfl
  exact hregroup.borrowed hb.held

theorem plan (h : l.Covers extra e) (id : SessionId) (connective : Connective) (group : Group) :
    Ensures (Session.plan id connective group) e fun _ e' => l.Covers extra e' :=
  (Loan.plan (Borrowed.start (Known l) e) h.allows).mono fun _ _ hb => h.built hb.1

theorem build (h : l.Covers extra e) (id : SessionId) (q : Query) :
    Ensures (q.build id) e fun _ e' => l.Covers extra e' :=
  (Loan.build q (Borrowed.start (Known l) e) h.allows).mono fun _ _ hb => h.built hb.1

theorem joined {r : Except Fault SessionId} (h : l.Covers extra e) (hj : Joined e r e') :
    l.Covers extra e' := by
  obtain ⟨files, s, -, rfl, -, hrunning, hpinned, hlive⟩ := hj
  have hscope : s.scope.Nodup := h.single.of_append_left.sublist hlive
  have hscopes : ({ e with files, sessions := e.sessions.push s } : Engine).scopes =
      e.scopes ++ s.scope := by
    rw [Engine.scopes, Array.toList_push, List.flatMap_append, List.flatMap_singleton, Session.pins,
      hrunning, if_neg Bool.false_ne_true, Engine.scopes]
  have hknown : ∀ f ∈ s.scope, f ∈ l.files := fun f hf => h.balanced.keepers f (by
    have := hlive.subset hf
    simp [this])
  refine { h with balanced := ?_, distinct := ?_ }
  · have hb : Balanced { e with files } l.files l.segments (e.views ++ l.loose)
        (s.scope ++ (extra ++ (e.live ++ l.fresh ++ e.scopes))) :=
      h.balanced.pinned ⟨files, rfl⟩ hpinned hknown
    rw [hscopes]
    refine (hb.perm (.refl _) ?_).congr rfl rfl rfl
    refine List.perm_iff_count.2 fun f => ?_
    simp only [List.count_append]
    omega
  · intro k t ht
    rw [Array.getElem?_push] at ht
    split at ht
    · cases ht
      exact hscope
    · exact h.distinct k t ht

theorem openSession (h : l.Covers extra e) (now : Duration) (range : Option KeyRange)
    (quota : Int64) : Ensures (Session.openAt now range quota) e fun _ e' => l.Covers extra e' :=
  (ensures_openAt now range quota e).mono fun _ _ hj => h.joined hj

theorem release (h : l.Covers extra e) (id : SessionId) (group : Group) :
    Ensures (Session.release id group) e fun r e' => r = .ok () ∧ l.Covers extra e' ∧
      ∀ k : Nat, e'.sessions[k]?.map Session.finished = e.sessions[k]?.map Session.finished := by
  rw [Session.release, ensures_sessionState_bind]
  split
  · exact ⟨rfl, h, fun _ => rfl⟩
  next cursors _ =>
  rw [Session.update, ensures_modify_bind]
  have hregroup : l.Covers extra (e.updateSession id _) :=
    h.regroup (fun s => { s with groups := s.groups.erase group }) (fun _ => rfl) fun _ => rfl
  refine hregroup.reclaim.bind_ok ?_
  rintro e₁ ⟨hs, h₁⟩
  refine Ensures.and (R := fun r _ => r = .ok ()) (Act.allQuietly_fst _ _ _) ?_
  refine (Ensures.and ((Cursor.framed_closeQuietly cursors).frame e₁)
    (h₁.closeQuietly cursors)).mono ?_
  rintro _ e₂ ⟨hf, h₂⟩
  refine ⟨h₂, fun k => ?_⟩
  rw [hf.sessions, hs, Engine.updateSession, Array.getElem?_modify]
  split
  · rw [Option.map_map]
    rfl
  · rfl

theorem releaseAll (h : l.Covers extra e) (id : SessionId) (groups : List Group) :
    Ensures (Session.releaseAll id groups) e fun r e' => r = .ok () ∧ l.Covers extra e' ∧
      ∀ k : Nat, e'.sessions[k]?.map Session.finished = e.sessions[k]?.map Session.finished := by
  induction groups generalizing e with
  | nil => exact ⟨rfl, h, fun _ => rfl⟩
  | cons group rest ih =>
    rw [Session.releaseAll]
    refine (h.release id group).bind_ok ?_
    rintro e₁ ⟨h₁, hs⟩
    refine (ih h₁).mono ?_
    rintro _ _ ⟨hr, h₂, hs'⟩
    exact ⟨hr, h₂, fun k => (hs' k).trans (hs k)⟩

theorem releaseQuery (h : l.Covers extra e) (id : SessionId) (q : Query) :
    Ensures (q.release id) e fun r e' => r = .ok () ∧ l.Covers extra e' := by
  induction q generalizing e with
  | absent => exact ⟨rfl, h⟩
  | node _ group left right ihl ihr =>
    have hparts : ∀ {e}, l.Covers extra e →
        Ensures (left.release id >>= fun _ => right.release id) e
          fun r e' => r = .ok () ∧ l.Covers extra e' := fun h =>
      (ihl h).bind (fun _ _ h' => ihr h'.2) fun _ _ h' => nomatch h'.1
    rw [Query.release]
    split
    · exact (h.release id group).bind (fun _ _ h' => hparts h'.2.1) fun _ _ h' => nomatch h'.1
    · exact hparts h

/-- A session that is finished gives its files back, once. -/
theorem finish (h : l.Covers extra e) (id : SessionId) :
    Ensures (Session.finish id) e fun _ e' => l.Covers extra e' := by
  rw [Session.finish, ensures_sessionState_bind]
  by_cases hfinished : (e.session id).finished
  · rw [if_pos hfinished]
    exact h
  rw [if_neg hfinished]
  cases hs : e.sessions[id]? with
  | none =>
    rw [Engine.session, Array.getD_eq_getD_getElem?, hs] at hfinished
    exact absurd rfl hfinished
  | some s =>
  have hsession : e.session id = s := by
    rw [Engine.session, Array.getD_eq_getD_getElem?, hs, Option.getD_some]
  rw [hsession] at hfinished ⊢
  rw [Session.update, ensures_modify_bind]
  have hended : l.Covers (s.scope ++ extra)
      (e.updateSession id fun s => { s with finished := true }) := by
    refine h.updateSession hs ?_ (h.distinct id s hs)
    rw [Session.pins, if_neg hfinished, Session.pins, if_pos rfl, List.append_nil]
  refine (hended.releaseAll id _).bind_ok ?_
  rintro e₁ ⟨h₁, hsame⟩
  have hover : e₁.sessions[id]?.map Session.finished = some true := by
    rw [hsame id, Engine.updateSession, Array.getElem?_modify, if_pos rfl, hs]
    rfl
  have hb := h₁.balanced
  rw [List.append_assoc] at hb
  have hfiles : Ensures (DataFile.releaseAll s.scope) e₁ fun r e' => r = .ok () ∧
      l.Covers extra e' ∧ e'.sessions = e₁.sessions := by
    refine Ensures.and (R := fun r _ => r = .ok ()) (Act.allQuietly_fst _ _ _) ?_
    refine (Ensures.and ((DataFile.framed_releaseAll s.scope).frame e₁) hb.releaseFiles).mono ?_
    rintro _ e₂ ⟨hf, -, hb₂⟩
    exact ⟨h₁.framed hf hb₂, hf.sessions⟩
  refine hfiles.bind_ok ?_
  rintro e₂ ⟨h₂, hs₂⟩
  let unscope : Session → Session := fun s => { s with scope := [] }
  change l.Covers extra (e₂.updateSession id unscope)
  obtain ⟨t, ht, hfinished'⟩ := Option.map_eq_some_iff.1 (hs₂ ▸ hover)
  have hpins : t.pins.Perm ([] ++ (unscope t).pins) := by
    rw [Session.pins, if_pos hfinished', Session.pins, if_pos hfinished', List.nil_append]
  have hscope : (unscope t).scope.Nodup := List.nodup_nil
  exact h₂.updateSession ht hpins hscope

/-- A run opens one session and finishes it, whatever comes in between. -/
theorem run (h : l.Covers extra e) (r : Query.Request) : l.Covers extra (r.run e).2 :=
  ensures_inOwnSession (I := fun _ => l.Covers extra) r { engine := e } h (fun _ hj => h.joined hj)
    (fun _ => steady_inSession r (fun _ _ h hs => h.unmoved hs) fun _ h' => h'.build _ r.query)
    fun _ _ _ h' => h'.finish _

end SecondaryIndex.Ledger.Covers
