import SecondaryIndex.Proofs.NoTrace
import SecondaryIndex.Proofs.Opening

namespace SecondaryIndex

namespace Loan

variable {P : List Segment → Prop} {id : SessionId} {e₀ e e₁ e' : Engine} {S H : List Nat}
  {group : Group} {ids : List CursorId}

theorem Grows.erase (h : Grows id e e₁) (hnew : (e.session id).groups.get? group = none)
    (hgroup : (e₁.session id).groups.get? group = some ids) :
    Grows id e (e₁.updateSession id fun s => { s with groups := s.groups.erase group }) where
  sessions := by
    obtain ⟨groups, hs⟩ := h.sessions
    refine ⟨groups.erase group, ?_⟩
    rw [Engine.updateSession, hs, modify_modify]
    rfl
  kept g ids' hg := by
    rw [get?_erased hgroup, if_neg (compare_ne_of_get? hnew hg)]
    exact h.kept g ids' hg
  keys g hg := by
    have hmem := Std.TreeMap.mem_of_getKey?_eq_some (mem_keys_iff.1 hg)
    have hne := compare_ne_of_get? hnew (Std.TreeMap.getElem?_eq_some_getElem hmem)
    rw [session_erased hgroup, mem_keys_iff, Std.TreeMap.getKey?_erase, if_neg hne]
    exact mem_keys_iff.1 (h.keys g hg)

namespace Built

theorem stills (h : Built P id e₀ e e₁ S H) {cursors : Array Cursor}
    (hs : Stills e₁.cursors cursors) : Built P id e₀ e { e₁ with cursors } S H where
  held := h.held.stills hs
  ext := h.ext.trans hs.extends
  grows := ⟨h.grows.1, h.grows.2, h.grows.3⟩
  added g ids hg x hx := (h.added g ids ⟨hg.1, hg.2⟩ x hx).extends hs.extends
  opened x hle hopen := by
    obtain ⟨g, ids, hg, hx⟩ :=
      h.opened x hle (hopen.of_extends hs.extends (hs.size_eq ▸ hopen.lt_size))
    exact ⟨g, ids, ⟨hg.1, hg.2⟩, hx⟩

/-- A group that was opened on the way is forgotten again. -/
theorem forgotten (h : Built P id e₀ e e₁ S H) (hnew : (e.session id).groups.get? group = none)
    (h' : Forgotten P id group ids e₀ e₁ e' S H) : Built P id e₀ e e' S H where
  held := h'.held
  ext := h.ext.trans h'.closes.ext
  grows := (h.grows.erase hnew h'.listed).trans (.of_eq h'.sessions)
  added g ids' hg x hx :=
    (h.added g ids' ⟨hg.new, (h'.get?_of_some hg.listed).1⟩ x hx).extends h'.closes.ext
  opened x hle hopen := by
    obtain ⟨g, ids', hg, hx⟩ :=
      h.opened x hle (hopen.of_extends h'.closes.ext (h'.closes.size ▸ hopen.lt_size))
    exact ⟨g, ids', ⟨hg.new, h'.get?_of_isOpen hg.listed hx hopen⟩, hx⟩

theorem release (h : Built P id e e e₁ S H) (hold : e.Holding)
    (hnew : (e.session id).groups.get? group = none) :
    Ensures (Session.release id group) e₁ fun r e' => r = .ok () ∧ Built P id e e e' S H ∧
      ∀ g ids, (e'.session id).groups.get? g = some ids →
        (e₁.session id).groups.get? g = some ids ∧ Group.compare group g ≠ .eq := by
  cases hgroup : (e₁.session id).groups.get? group with
  | none =>
    rw [ensures_release_none hgroup]
    exact ⟨rfl, h, fun g ids hg => ⟨hg, compare_ne_of_get? hgroup hg⟩⟩
  | some ids =>
    have hsame := h.held.untouched
    have hfewer := (h.grows.erase hnew hgroup).fewer hsame.published hsame.handles
    refine ensures_release_some hgroup (hold.mono hsame.indexes hfewer)
      ((h.held.forgetGroup hgroup (h.added group ids ⟨hnew, hgroup⟩)).mono ?_)
    rintro r e' ⟨hr, h'⟩
    exact ⟨hr, h.forgotten hnew h', fun g ids' hg => h'.get?_of_some hg⟩

theorem releaseAll (h : Built P id e e e₁ S H) (hold : e.Holding) (gs : List Group)
    (hnew : ∀ g ∈ gs, (e.session id).groups.get? g = none) :
    Ensures (Session.releaseAll id gs) e₁ fun r e' => r = .ok () ∧ Built P id e e e' S H ∧
      ∀ g ids, (e'.session id).groups.get? g = some ids →
        (e₁.session id).groups.get? g = some ids ∧ ∀ g' ∈ gs, Group.compare g' g ≠ .eq :=
  ensures_releaseAll (fun group hgroup _ h => h.release hold (hnew group hgroup)) h

theorem toList_groups (h : Built P id e₀ e e' S H) (hnone : ∀ g ids, ¬ Added id e e' g ids) :
    (e'.session id).groups.toList = (e.session id).groups.toList := by
  have hget : ∀ g, (e'.session id).groups.get? g = (e.session id).groups.get? g := by
    intro g
    cases hg : (e.session id).groups.get? g with
    | none => exact Option.eq_none_iff_forall_ne_some.2 fun ids hids => hnone g ids ⟨hg, hids⟩
    | some ids => exact h.grows.kept g ids hg
  have hequiv : (e'.session id).groups.Equiv (e.session id).groups := by
    refine .of_forall_getKey_eq_of_forall_constGet?_eq (fun g hg' hg => ?_) hget
    -- The key under which a group stands is there before and after.
    have hsame := Std.TreeMap.compare_getKey_self hg
    have hkey : (e.session id).groups.getKey g hg ∈ (e.session id).groups.keys := by
      rw [mem_keys_iff, Std.TreeMap.getKey?_congr hsame, Std.TreeMap.getKey?_eq_some_getKey hg]
    have hkey' := mem_keys_iff.1 (h.grows.keys _ hkey)
    rw [Std.TreeMap.getKey?_congr hsame, Std.TreeMap.getKey?_eq_some_getKey hg'] at hkey'
    exact Option.some.inj hkey'
  exact hequiv.toList_eq

end Built

/-- What a session has done since `e` is undone: its groups and all else are as they were, no cursor
that was there has been closed, and those that segments have handed out since have been closed
once. -/
structure Undone (id : SessionId) (e e' : Engine) : Prop where
  rest : ∃ groups, groups.toList = (e.session id).groups.toList ∧ e' = { e with
    cursors := e'.cursors
    sessions := e.sessions.modify id fun s => { s with groups } }
  older : ∀ x : Nat, x < e.cursors.size →
    e'.cursors[x]?.map Cursor.still = e.cursors[x]?.map Cursor.still
  handedOut : ∀ (x : CursorId) c, e.cursors.size ≤ x → e'.cursors[x]? = some c →
    c.source.handedOut → c.closes = 1

/-- Matches that are still open are listed by a group, so that without new groups there are none. -/
theorem Built.undone (h : Built P id e e e' [] []) (hlt : id < e.sessions.size)
    (hnone : ∀ g ids, ¬ Added id e e' g ids) : Undone id e e' := by
  have hsettled := h.held.settled fun x hle hopen => by
    obtain ⟨g, ids, hg, -⟩ := h.opened x hle hopen
    exact hnone g ids hg
  obtain ⟨groups, hsessions⟩ := h.grows.sessions
  refine ⟨⟨groups, ?_, ?_⟩, h.held.older, hsettled.handedOut⟩
  · have hsession : (e'.session id).groups = groups := by
      simp [Engine.session, hsessions, hlt, Array.getElem_modify]
    rw [← h.toList_groups hnone, hsession]
  · rw [h.held.untouched.eq, hsettled.segments, hsessions]

end Loan

theorem Session.releaseAll_append (id : SessionId) (gs gs' : List Group) :
    releaseAll id (gs ++ gs') = (do releaseAll id gs; releaseAll id gs') := by
  induction gs with
  | nil => rfl
  | cons g rest ih => rw [List.cons_append, releaseAll, releaseAll, ih, bind_assoc]

namespace Query

theorem release_eq (q : Query) (id : SessionId) :
    q.release id = Session.releaseAll id q.groups := by
  induction q with
  | absent => rfl
  | node connective group left right ihl ihr =>
    rw [release, groups, Session.releaseAll_append, Session.releaseAll_append, ihl, ihr]
    cases group with
    | nil => rfl
    | cons c rest => simp [Session.releaseAll]

/-- Whatever a build came to, and however far its result has been read, releasing the query undoes
it. -/
theorem release_undoes_build {e : Engine} (h : Reachable e) {id : SessionId} (q : Query)
    (hrunning : ¬ (e.session id).finished)
    (hnew : ∀ g ∈ q.groups, ¬ (e.session id).groups.contains g) {cursors : Array Cursor}
    (hread : Loan.Stills (q.build id e).2.cursors cursors) :
    ∃ e', q.release id { (q.build id e).2 with cursors } = (.ok (), e') ∧ Loan.Undone id e e' := by
  have hget : ∀ g ∈ q.groups, (e.session id).groups.get? g = none := fun g hg =>
    Loan.get?_eq_none_iff.2 (hnew g hg)
  have hbuilt : Loan.Built (fun _ => True) id e e (q.build id e).2 [] [] :=
    (Loan.build q (.start _ e) (Loan.allows_true e)).1
  have hopening : Opening id q.groups e (q.build id e).2 := opensOnly_build q e
  obtain ⟨hr, h', hleft⟩ := (hbuilt.stills hread).releaseAll h.holding q.groups hget
  rw [release_eq]
  refine ⟨_, Prod.ext hr rfl, h'.undone (Loan.lt_size_of_running hrunning) ?_⟩
  -- Whatever group is still open is not equal to one of the query, so that it was open before.
  rintro g ids ⟨hunlisted, hg⟩
  obtain ⟨hg, hne⟩ := hleft g ids hg
  have hcontains : ((q.build id e).2.session id).groups.contains g := by
    by_contra hnot
    cases (Loan.get?_eq_none_iff.2 hnot).symm.trans hg
  rcases hopening.groups g hcontains with hlisted | ⟨g', hg', heq⟩
  · exact Loan.get?_eq_none_iff.1 hunlisted hlisted
  · exact hne g' hg' heq

def sharedSession : Engine :=
  Operation.effects (Request.faultySteps ++ [.openSession 0 (some .full) 1000,
    .plan 0 .or [⟨"a", .text, some 0, .startsWith [120]⟩]]) {}

/-- The same group twice, so that the build fails at the second one. -/
def twiceInTree : Query :=
  let group : Group := [⟨"a", .text, some 0, .eq [120]⟩]
  .node .and group (.node .or group .absent .absent) .absent

theorem release_undoes_twiceInTree :
    (twiceInTree.build 0 sharedSession).1 = .error .groupOpen ∧
      sharedSession.segments.toList.map SegmentState.refs = [2] ∧
      (twiceInTree.build 0 sharedSession).2.segments.toList.map SegmentState.refs = [3] ∧
      ∃ e', twiceInTree.release 0 (twiceInTree.build 0 sharedSession).2 = (.ok (), e') ∧
        Loan.Undone 0 sharedSession e' := by
  have hreach : Reachable sharedSession := Reachable.start.steps _
  have hrunning : ¬ (sharedSession.session 0).finished := by decide +kernel
  have hnew : ∀ g ∈ twiceInTree.groups, ¬ (sharedSession.session 0).groups.contains g := by
    decide +kernel
  refine ⟨by decide +kernel, by decide +kernel, by decide +kernel, ?_⟩
  generalize sharedSession = e at hreach hrunning hnew ⊢
  exact release_undoes_build hreach twiceInTree hrunning hnew (.refl _)

end Query
end SecondaryIndex
