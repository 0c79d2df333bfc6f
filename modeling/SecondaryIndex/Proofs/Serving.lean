import SecondaryIndex.Proofs.Meaning
import SecondaryIndex.Proofs.NoTrace
import SecondaryIndex.Proofs.Replacing
import SecondaryIndex.Proofs.Serving.Faults

namespace SecondaryIndex

namespace Group

/-- Two groups are equal if they ask the same, condition by condition. -/
def Same (g g' : Group) : Prop := List.Forall₂ (fun a b => a.same b = true) g g'

theorem compare_eq_iff {g g' : Group} : compare g g' = .eq ↔ Same g g' := by
  induction g generalizing g' with
  | nil => cases g' <;> simp [compare, Same, List.compareLex]
  | cons a rest ih =>
    cases g' with
    | nil => simp [compare, Same, List.compareLex]
    | cons b rest' =>
      rw [compare, List.compareLex_cons_cons, Ordering.then_eq_eq, Condition.compare_eq_iff_same,
        Same, List.forall₂_cons]
      exact and_congr_right fun _ => ih

end Group

namespace Session

open Loan

/-- A group equal to this one is open, and these are its cursors. -/
def Records (s : Session) (group : Group) (ids : List CursorId) : Prop :=
  ∃ g, group.Same g ∧ (g, ids) ∈ s.groups.toList

theorem get?_eq_some_iff {s : Session} {group : Group} {ids : List CursorId} :
    s.groups.get? group = some ids ↔ s.Records group ids := by
  rw [Std.TreeMap.get?_eq_getElem?,
    Std.TreeMap.getElem?_eq_some_iff_exists_compare_eq_eq_and_mem_toList]
  exact exists_congr fun g => and_congr_left fun _ => Group.compare_eq_iff

theorem contains_iff {s : Session} {group : Group} :
    s.groups.contains group = true ↔ ∃ ids, s.Records group ids := by
  rw [Std.TreeMap.contains_eq_isSome_getElem?, Option.isSome_iff_exists]
  exact exists_congr fun ids => get?_eq_some_iff

inductive Call
  | plan (connective : Connective) (group : Group)
  | release (group : Group)
  | finish

namespace Call

def effect (id : SessionId) : Call → Engine → Engine
  | plan connective group, e => (Session.plan id connective group e).2
  | release group, e => (Session.release id group e).2
  | finish, e => (Session.finish id e).2

/-- What several calls make of an engine, one after the other. -/
def effects (id : SessionId) (calls : List Call) (e : Engine) : Engine :=
  calls.foldl (fun e call => call.effect id e) e

end Call

/-- What may keep a group from being planned: two values that cannot be compared, or a segment in
which a condition of the group cannot be searched. -/
inductive Cause (e : Engine) (group : Group) : Fault → Prop
  | incomparable {f : Fault} (values : ValueType.Incomparable f) : Cause e group f
  | segment {f : Fault} {c : Condition} {s : Segment} (mem : c ∈ group) (fails : s.Faults e c f) :
      Cause e group f

/-- The group is open from then on. The matches opened for it are open, and each holds one reference
on its segments. -/
structure Granted (id : SessionId) (group : Group) (ids : List CursorId) (e e' : Engine) :
    Prop where
  left : Left e.cursors.size e'.cursors ids
  older : Agree e.cursors.size e.cursors e'.cursors
  segments : ∀ i : Nat, e'.segments[i]? = e.segments[i]?.map fun state =>
    { state with refs := state.refs + (lentFrom e.cursors.size e'.cursors).count i }
  rest : e' = { e.updateSession id fun s => { s with groups := s.groups.insert group ids } with
    cursors := e'.cursors, segments := e'.segments }

/-- All is as before, but for cursors that were opened on the way. Each of them is closed, once,
unless it is a list of tokens from a memtable, which holds nothing and has nothing to close. -/
structure Refused (e e' : Engine) : Prop where
  older : Agree e.cursors.size e.cursors e'.cursors
  closed : ∀ (x : Nat) c, e.cursors.size ≤ x → e'.cursors[x]? = some c →
    c.closes = 1 ∨ IsMemory e'.cursors x
  rest : e' = { e with cursors := e'.cursors }

/-- The cursors of a group are closed, and the group is not open any more. -/
structure Released (id : SessionId) (group : Group) (ids : List CursorId) (e e' : Engine) :
    Prop where
  givenBack : GivenBack ids e e'
  rest : e' = { e.updateSession id fun s => { s with groups := s.groups.erase group } with
    cursors := e'.cursors, segments := e'.segments }

/-- All that is open is closed, and each file in scope loses the reference of the session. -/
structure Ended (id : SessionId) (e e' : Engine) : Prop where
  givenBack : GivenBack ((e.session id).groups.toList.flatMap Prod.snd) e e'
  files : DataFile.Pinned e'.files e.files ((e.session id).scope.map DataFile.id)
  distinct : (e.session id).scope.Nodup
  session : ∃ groups, groups.isEmpty = true ∧
    e'.session id = { e.session id with groups, finished := true, scope := [] }
  others : ∀ i : Nat, i ≠ id → e'.sessions[i]? = e.sessions[i]?
  rest : e' = { e with files := e'.files, segments := e'.segments, cursors := e'.cursors,
                       sessions := e'.sessions }

/-- What the next call of a session does, whichever it is. -/
structure Lawful (id : SessionId) (e : Engine) : Prop where
  nothing_left : (e.session id).finished = true →
    (e.session id).groups.isEmpty = true ∧ (e.session id).scope = []
  plan_finished : (e.session id).finished = true → ∀ connective group,
    Session.plan id connective group e = (.error .sessionFinished, e)
  plan_open : (e.session id).finished = false → ∀ connective group ids,
    (e.session id).Records group ids → Session.plan id connective group e = (.error .groupOpen, e)
  plan_new : (e.session id).finished = false → ∀ connective group,
    (∀ ids, ¬ (e.session id).Records group ids) →
      Ensures (Session.plan id connective group) e fun
        | .ok m, e' => m.connective = connective ∧ ∃ ids, Granted id group ids e e'
        | .error f, e' => Cause e group f ∧ Refused e e'
  release_none : ∀ group, (∀ ids, ¬ (e.session id).Records group ids) →
    Session.release id group e = (.ok (), e)
  release_open : ∀ group ids, (e.session id).Records group ids →
    Ensures (Session.release id group) e fun r e' => r = .ok () ∧ Released id group ids e e'
  finish_again : (e.session id).finished = true → Session.finish id e = (.ok (), e)
  finish_first : (e.session id).finished = false →
    Ensures (Session.finish id) e fun r e' => r = .ok () ∧ Ended id e e'

section

variable {id : SessionId} {e e' : Engine} {connective : Connective} {group : Group}

theorem Cause.of_candidates {cands : List Candidate} {f : Fault}
    (hcands : cands.map Candidate.condition = group.eligible)
    (h : Candidate.Faults e cands f) : Cause e group f := by
  rcases h with h | ⟨d, hd, s, -, hs⟩
  · exact .incomparable h
  · have hmem : d.condition ∈ group.eligible := hcands ▸ List.mem_map_of_mem hd
    exact .segment ((Group.stand_eligible group).mem d.condition hmem).1 hs

theorem Refused.of_left (h : Planned (fun _ => True) e e e' [] [] [])
    (hleft : Left e.cursors.size e'.cursors []) : Refused e e' := by
  obtain ⟨hlent, howned⟩ := lentFrom_eq_nil fun x hx hopen => nomatch h.opens x hx hopen
  have hsegments : e'.segments = e.segments := by
    refine Array.ext_getElem? fun i => ?_
    rw [h.held.segments, hlent]
    exact Option.map_id'
  refine ⟨h.held.older, fun x c hx hc => ?_, ?_⟩
  · rcases hleft.ended x c hx hc with ht | hcloses | hmem
    · by_cases hout : c.source.handedOut = true
      · have honce := h.held.once x hx (.inr ⟨c, hc, hout⟩)
        rw [howned, closes_of_getElem? hc] at honce
        exact .inl honce
      · exact .inr ⟨c, hc, ht, Bool.eq_false_iff.2 hout⟩
    · exact .inl hcloses
    · cases hmem
  · rw [h.held.untouched.eq, hsegments]

theorem Granted.of_left {ids : List CursorId}
    (h : Planned (fun _ => True) e e e' [] [] ids) (hleft : Left e.cursors.size e'.cursors ids) :
    Granted id group ids e
      (e'.updateSession id fun s => { s with groups := s.groups.insert group ids }) where
  left := hleft
  older := h.held.older
  segments i := by
    have hi := h.held.segments i
    rw [List.append_nil] at hi
    exact hi
  rest := by
    rw [h.held.untouched.eq]
    rfl

/-- Planning a new group either opens it, or leaves nothing behind. -/
theorem plan_outcome (hindexed : e.Indexed) (hrunning : (e.session id).finished = false)
    (hnew : ∀ ids, ¬ (e.session id).Records group ids) :
    Ensures (Session.plan id connective group) e fun
      | .ok m, e' => m.connective = connective ∧ ∃ ids, Granted id group ids e e'
      | .error f, e' => Cause e group f ∧ Refused e e' := by
  have hcontains : ¬ (e.session id).groups.contains group := fun h =>
    have ⟨ids, hids⟩ := contains_iff.1 h
    hnew ids hids
  rw [ensures_plan (Bool.eq_false_iff.1 hrunning) hcontains]
  have hself : Planned (fun _ => True) e e e [] [] [] := .of_eq (.refl _ e) rfl
  cases hcands : Candidate.ofGroup e (e.session id).scope connective group with
  | error f =>
    refine ⟨.incomparable ?_, .of_left hself (Leaves.start _).left⟩
    exact Candidate.comparing_ofGroup hindexed _ group connective f hcands
  | ok cands =>
    have hconditions := (Candidate.drawn_ofGroup hindexed hcands).1
    refine (((Borrowed.fails_openAll (.refl _ e) cands).and
      (Borrowed.openAll cands (.refl (fun _ => True) e) fun _ _ _ _ => trivial)).and
        (left_openAll cands e)).mono ?_
    rintro (f | ids) e₁ ⟨⟨hfails, h₁⟩, hleft⟩
    · exact ⟨.of_candidates hconditions (hfails f rfl), .of_left h₁ hleft⟩
    · exact ⟨Merge.foldl_takeIn_connective _ _ _, ids, .of_left h₁.1 hleft⟩

structure Begun (id : SessionId) (files : Array FileState) (e₀ : Engine) : Prop where
  holding : e₀.Holding
  indexed : e₀.Indexed
  empty : (e₀.session id).groups = ∅
  pinned : DataFile.Pinned files e₀.files ((e₀.session id).scope.map DataFile.id)
  distinct : (e₀.session id).scope.Nodup

/-- What a session opened since `e₀`: its groups list open matches, each of them once. -/
structure Going (id : SessionId) (e₀ e : Engine) : Prop where
  underway : Underway id e₀ e
  listed : ∀ g ids, (e.session id).groups.get? g = some ids →
    ids.Nodup ∧ ∀ x ∈ ids, e₀.cursors.size ≤ x ∧ IsOpen e.cursors x
  apart : ∀ g g' ids ids', (e.session id).groups.get? g = some ids →
    (e.session id).groups.get? g' = some ids' → Group.compare g g' ≠ .eq → ∀ x ∈ ids, x ∉ ids'

variable {e₀ : Engine} {files : Array FileState} {ids : List CursorId}

theorem Released.session_eq (h : Released id group ids e e') : e'.session id =
    (e.updateSession id fun s => { s with groups := s.groups.erase group }).session id := by
  rw [h.rest]
  rfl

theorem Released.session (h : Released id group ids e e') :
    ∃ groups, e'.session id = { e.session id with groups } := by
  rw [h.session_eq, session_updateSession]
  split
  · exact ⟨_, rfl⟩
  · exact ⟨_, rfl⟩

namespace Going

theorem start (b : Begun id files e₀) : Going id e₀ e₀ where
  underway := .start b.empty
  listed g ids hg := by
    rw [b.empty] at hg
    cases hg
  apart g g' ids ids' hg := by
    rw [b.empty] at hg
    cases hg

theorem keep (h : Going id e₀ e) (h' : Underway id e₀ e')
    (hkept : ∀ g ids, (e'.session id).groups.get? g = some ids →
      (e.session id).groups.get? g = some ids ∧ ∀ x ∈ ids, IsOpen e'.cursors x) :
    Going id e₀ e' where
  underway := h'
  listed g ids hg := by
    obtain ⟨hg, hopen⟩ := hkept g ids hg
    obtain ⟨hnodup, hids⟩ := h.listed g ids hg
    exact ⟨hnodup, fun x hx => ⟨(hids x hx).1, hopen x hx⟩⟩
  apart g g' ids ids' hg hg' := h.apart g g' ids ids' (hkept g ids hg).1 (hkept g' ids' hg').1

theorem refused (h : Going id e₀ e) (h' : Underway id e₀ e') (hrefused : Refused e e') :
    Going id e₀ e' := by
  refine h.keep h' fun g ids hg => ?_
  have hsame : e'.session id = e.session id := by
    rw [hrefused.rest]
    rfl
  rw [hsame] at hg
  refine ⟨hg, fun x hx => ?_⟩
  have hopen := ((h.listed g ids hg).2 x hx).2
  exact hrefused.older.isOpen hopen.lt_size hopen

theorem granted (h : Going id e₀ e) (h' : Underway id e₀ e') (hgranted : Granted id group ids e e')
    (hlt : id < e.sessions.size) : Going id e₀ e' := by
  have hsession : (e'.session id).groups = (e.session id).groups.insert group ids := by
    rw [hgranted.rest]
    change ((e.updateSession id _).session id).groups = _
    rw [session_updateSession, if_pos ⟨rfl, hlt⟩]
  have hget : ∀ g, (e'.session id).groups.get? g =
      if Group.compare group g = .eq then some ids else (e.session id).groups.get? g := by
    intro g
    rw [hsession]
    exact Std.TreeMap.getElem?_insert
  -- Cursors of groups that were open before have smaller numbers than those of the new group.
  have hold : ∀ g ids, (e.session id).groups.get? g = some ids →
      ∀ x ∈ ids, x < e.cursors.size ∧ IsOpen e'.cursors x := by
    intro g ids hg x hx
    have hopen := ((h.listed g ids hg).2 x hx).2
    exact ⟨hopen.lt_size, hgranted.older.isOpen hopen.lt_size hopen⟩
  refine ⟨h', fun g ids' hg => ?_, fun g g' ids₁ ids₂ hg hg' hne x hx hx' => ?_⟩
  · rw [hget] at hg
    split at hg
    · cases hg
      refine ⟨hgranted.left.rising.imp Nat.ne_of_lt, fun x hx => ?_⟩
      obtain ⟨hle, hopen⟩ := hgranted.left.fresh x hx
      exact ⟨h.underway.held.size_le.trans hle, hopen⟩
    · obtain ⟨hnodup, hids⟩ := h.listed g ids' hg
      exact ⟨hnodup, fun x hx => ⟨(hids x hx).1, (hold g ids' hg x hx).2⟩⟩
  · rw [hget] at hg hg'
    split at hg
    next heq =>
      cases hg
      rw [if_neg fun heq' => hne ?_] at hg'
      · exact Nat.not_lt.2 (hgranted.left.fresh x hx).1 (hold g' ids₂ hg' x hx').1
      · exact Std.TransCmp.eq_trans (Std.OrientedCmp.eq_symm heq) heq'
    next =>
      split at hg'
      · cases hg'
        exact Nat.not_lt.2 (hgranted.left.fresh x hx').1 (hold g ids₁ hg x hx).1
      · exact h.apart g g' ids₁ ids₂ hg hg' hne x hx hx'

/-- Releasing an open group gives back what it lists, and leaves the others open. -/
theorem release (b : Begun id files e₀) (h : Going id e₀ e)
    (hgroup : (e.session id).groups.get? group = some ids) :
    Ensures (Session.release id group) e fun r e' =>
      r = .ok () ∧ Released id group ids e e' ∧ Going id e₀ e' := by
  obtain ⟨hnodup, hids⟩ := h.listed group ids hgroup
  have h₁ := h.underway.held.withSessions
    (e.updateSession id fun s => { s with groups := s.groups.erase group }).sessions
  have hreleased : Ensures (Session.release id group) e fun r e' =>
      r = .ok () ∧ Released id group ids e e' := by
    refine h.underway.ensures_release b.holding b.empty hgroup ?_
    refine (h₁.closeEach hnodup hids).mono ?_
    rintro r e' ⟨hr, h', hback⟩
    exact ⟨hr, hback.congr rfl rfl rfl rfl, (h'.untouched.beside h₁.untouched).eq⟩
  refine (hreleased.and (h.underway.release b.holding b.empty group)).mono ?_
  rintro r e' ⟨⟨hr, hrel⟩, -, h', hleft⟩
  refine ⟨hr, hrel, h.keep h' fun g ids' hg => ?_⟩
  obtain ⟨hg, hne⟩ := hleft g ids' hg
  refine ⟨hg, fun x hx => ?_⟩
  refine h.underway.held.isOpen_of_givenBack hrel.givenBack hids ((h.listed g ids' hg).2 x hx).2 ?_
  exact fun hmem => h.apart group g ids ids' hgroup hg hne x hmem hx

theorem releaseAll (b : Begun id files e₀) (h : Going id e₀ e)
    {listed : List (Group × List CursorId)}
    (hopen : ∀ p ∈ listed, (e.session id).groups.get? p.1 = some p.2)
    (hapart : listed.Pairwise fun p q => ¬ Group.compare p.1 q.1 = .eq) :
    Ensures (Session.releaseAll id (listed.map Prod.fst)) e fun r e' => r = .ok () ∧
      GivenBack (listed.flatMap Prod.snd) e e' ∧ e'.sessions.size = e.sessions.size ∧
        ∃ groups, e'.session id = { e.session id with groups } := by
  induction listed generalizing e with
  | nil => exact ⟨rfl, .nil rfl rfl, rfl, _, rfl⟩
  | cons p rest ih =>
    rw [List.forall_mem_cons] at hopen
    rw [List.pairwise_cons] at hapart
    rw [List.map_cons, Session.releaseAll]
    refine (h.release b hopen.1).bind_ok ?_
    rintro e₁ ⟨hrel, h₁⟩
    -- The groups still to be released are not equal to this one, so they are still open.
    refine (ih h₁ (fun q hq => ?_) hapart.2).mono ?_
    · rw [hrel.session_eq, get?_erased hopen.1, if_neg (hapart.1 q hq)]
      exact hopen.2 q hq
    · rintro r e₂ ⟨hr, hback, hsize, groups, hsession⟩
      refine ⟨hr, hrel.givenBack.append hback, ?_, groups, ?_⟩
      · rw [hsize, hrel.rest]
        exact Array.size_modify
      · obtain ⟨_, hsession₁⟩ := hrel.session
        rw [hsession, hsession₁]

end Going

theorem Going.indexed (b : Begun id files e₀) (h : Going id e₀ e) : e.Indexed := by
  intro i index hi
  rw [h.underway.held.untouched.indexes] at hi
  exact b.indexed i index hi

theorem Going.plan (b : Begun id files e₀) (h : Going id e₀ e)
    (hrunning : (e.session id).finished = false) (connective : Connective)
    (hnew : ∀ ids, ¬ (e.session id).Records group ids) :
    Ensures (Session.plan id connective group) e fun _ e' => Going id e₀ e' ∧
      ∃ groups, e'.session id = { e.session id with groups } := by
  refine ((plan_outcome (h.indexed b) hrunning hnew).and
    (Loan.plan h.underway.held (allows_true e₀))).mono ?_
  rintro (f | m) e' ⟨houtcome, hbuilt, -⟩
  · exact ⟨h.refused (h.underway.built hbuilt) houtcome.2, hbuilt.grows.session⟩
  · obtain ⟨-, ids, hgranted⟩ := houtcome
    have hlt := lt_size_of_running (Bool.eq_false_iff.1 hrunning)
    exact ⟨h.granted (h.underway.built hbuilt) hgranted hlt, hbuilt.grows.session⟩

theorem ensures_finish_again (hfinished : (e.session id).finished = true)
    {Q : Except Fault Unit → Engine → Prop} : Ensures (Session.finish id) e Q ↔ Q (.ok ()) e := by
  rw [Session.finish, ensures_sessionState_bind]
  simp only [if_pos hfinished, ensures_pure]

theorem Going.mark (h : Going id e₀ e) :
    Going id e₀ (e.updateSession id fun s => { s with finished := true }) ∧
      ((e.updateSession id fun s => { s with finished := true }).session id).groups =
        (e.session id).groups := by
  obtain ⟨hunder, hgroups⟩ := h.underway.update (fun s => { s with finished := true }) fun _ => rfl
  refine ⟨h.keep hunder fun g ids hg => ?_, hgroups⟩
  rw [hgroups] at hg
  exact ⟨hg, fun x hx => ((h.listed g ids hg).2 x hx).2⟩

theorem isEmpty_of_get?_ne {s : Session} (h : ∀ g ids, s.groups.get? g ≠ some ids) :
    s.groups.isEmpty = true := by
  refine Std.TreeMap.isEmpty_iff_forall_contains.2 fun g => Bool.eq_false_iff.2 fun hcontains => ?_
  obtain ⟨ids, hids⟩ := contains_iff.1 hcontains
  exact h g ids (get?_eq_some_iff.2 hids)

theorem Going.releaseKeys (b : Begun id files e₀) (h : Going id e₀ e) :
    Ensures (Session.releaseAll id (e.session id).groups.keys) e fun r e' => r = .ok () ∧
      Underway id e₀ e' ∧ GivenBack ((e.session id).groups.toList.flatMap Prod.snd) e e' ∧
        e'.sessions.size = e.sessions.size ∧
          ∃ groups, groups.isEmpty = true ∧ e'.session id = { e.session id with groups } := by
  have hopen : ∀ p ∈ (e.session id).groups.toList, (e.session id).groups.get? p.1 = some p.2 :=
    fun _ hp => (Std.TreeMap.mem_toList_iff_getKey?_eq_some_and_getElem?_eq_some.1 hp).2
  have hall := h.releaseAll b hopen Std.TreeMap.distinct_keys_toList
  rw [Std.TreeMap.map_fst_toList_eq_keys] at hall
  refine (hall.and (h.underway.releaseKeys b.holding b.empty)).mono ?_
  rintro r e' ⟨⟨hr, hback, hsize, groups, hsession⟩, -, h', hnone⟩
  refine ⟨hr, h', hback, hsize, groups, ?_, hsession⟩
  have hempty := isEmpty_of_get?_ne hnone
  rwa [hsession] at hempty

theorem Going.finish (b : Begun id files e₀) (h : Going id e₀ e)
    (hrunning : (e.session id).finished = false)
    (hscope : (e.session id).scope = (e₀.session id).scope) :
    Ensures (Session.finish id) e fun r e' => r = .ok () ∧ Ended id e e' := by
  obtain ⟨h₁, hgroups⟩ := h.mark
  have hlt : id < e.sessions.size := lt_size_of_running (Bool.eq_false_iff.1 hrunning)
  rw [Session.finish, ensures_sessionState_bind]
  simp only [hrunning, Bool.false_eq_true, if_false, Session.update, ensures_modify_bind]
  rw [← hgroups]
  refine (h₁.releaseKeys b).bind_ok ?_
  rintro e₂ ⟨h₂, hback, hsize, groups, hempty, hsession⟩
  rw [hgroups] at hback
  -- Releasing groups leaves the files alone, so that the session still holds those in scope.
  have hpinned : DataFile.Pinned files e₂.files ((e.session id).scope.map DataFile.id ++ []) := by
    rw [h₂.held.untouched.files, hscope, List.append_nil]
    exact b.pinned
  refine (Ensures.and (R := fun r _ => r = .ok ()) (Act.allQuietly_fst _ _ _)
    (DataFile.Pinned.releaseAll hpinned)).bind_ok ?_
  rintro _ ⟨⟨files', rfl⟩, h₃⟩
  obtain rfl : files' = files := h₃.eq
  rw [ensures_modify]
  refine ⟨rfl, hback.congr rfl rfl rfl rfl, ?_, hscope ▸ b.distinct, ⟨groups, hempty, ?_⟩,
    fun i hi => ?_, ?_⟩
  · rw [h.underway.held.untouched.files, hscope]
    exact b.pinned
  · have hlt₂ : id < e₂.sessions.size := by
      rw [hsize]
      exact hlt.trans_eq Array.size_modify.symm
    rw [session_updateSession, if_pos ⟨rfl, hlt₂⟩]
    change ({ e₂.session id with scope := [] } : Session) = _
    rw [hsession, session_updateSession, if_pos ⟨rfl, hlt⟩]
  · refine (Array.getElem?_modify ..).trans ((if_neg (Ne.symm hi)).trans ?_)
    exact (h₂.others i hi).trans (h.underway.others i hi).symm
  · have hu := h.underway.held.untouched
    have hu₂ := h₂.held.untouched
    exact eq_of_catalog (hu₂.live.trans hu.live.symm) (hu₂.schema.trans hu.schema.symm)
      (hu₂.published.trans hu.published.symm) (hu₂.handles.trans hu.handles.symm)
      (hu₂.indexes.trans hu.indexes.symm)

def Stage (id : SessionId) (e₀ e : Engine) : Prop :=
  Going id e₀ e ∧ (e.session id).finished = false ∧
      (e.session id).scope = (e₀.session id).scope ∨
    (e.session id).finished = true ∧ (e.session id).groups.isEmpty = true ∧
      (e.session id).scope = []

theorem not_records_of_isEmpty {s : Session} (h : s.groups.isEmpty = true) :
    ¬ s.Records group ids := by
  intro hids
  have hcontains := contains_iff.2 ⟨ids, hids⟩
  rw [Std.TreeMap.isEmpty_iff_forall_contains.1 h group] at hcontains
  cases hcontains

theorem Stage.lawful (b : Begun id files e₀) (h : Stage id e₀ e) : Lawful id e where
  nothing_left hfinished := by
    rcases h with ⟨-, hrunning, -⟩ | ⟨-, hover⟩
    · rw [hfinished] at hrunning
      cases hrunning
    · exact hover
  plan_finished hfinished _ _ := Ensures.eq ((ensures_plan_finished hfinished).2 ⟨rfl, rfl⟩)
  plan_open hrunning _ _ ids hids :=
    Ensures.eq ((ensures_plan_open (Bool.eq_false_iff.1 hrunning)
      (contains_iff.2 ⟨ids, hids⟩)).2 ⟨rfl, rfl⟩)
  plan_new hrunning connective group hnew := by
    rcases h with ⟨hgoing, -⟩ | ⟨hfinished, -⟩
    · exact plan_outcome (hgoing.indexed b) hrunning hnew
    · rw [hfinished] at hrunning
      cases hrunning
  release_none group hnone := by
    refine Ensures.eq ((ensures_release_none (Option.eq_none_iff_forall_ne_some.2 ?_)).2 ⟨rfl, rfl⟩)
    exact fun ids hids => hnone ids (get?_eq_some_iff.1 hids)
  release_open group ids hids := by
    rcases h with ⟨hgoing, -⟩ | ⟨-, hempty, -⟩
    · refine (hgoing.release b (get?_eq_some_iff.2 hids)).mono ?_
      exact fun _ _ ⟨hr, hreleased, _⟩ => ⟨hr, hreleased⟩
    · exact absurd hids (not_records_of_isEmpty hempty)
  finish_again hfinished := Ensures.eq ((ensures_finish_again hfinished).2 ⟨rfl, rfl⟩)
  finish_first hrunning := by
    rcases h with ⟨hgoing, -, hscope⟩ | ⟨hfinished, -⟩
    · exact hgoing.finish b hrunning hscope
    · rw [hfinished] at hrunning
      cases hrunning

theorem Stage.of_session (h : Going id e₀ e') (hrunning : (e.session id).finished = false)
    (hscope : (e.session id).scope = (e₀.session id).scope)
    (hsession : ∃ groups, e'.session id = { e.session id with groups }) : Stage id e₀ e' := by
  obtain ⟨groups, hsession⟩ := hsession
  refine .inl ⟨h, ?_, ?_⟩ <;> rw [hsession]
  · exact hrunning
  · exact hscope

/-- No call leaves the stages of a session. -/
theorem Stage.effect (b : Begun id files e₀) (h : Stage id e₀ e) (call : Call) :
    Stage id e₀ (call.effect id e) := by
  have hlawful := h.lawful b
  -- Every case follows from what the call does by law; only a plan that succeeds, a release and the
  -- first finish change the session.
  have hself := h
  rcases h with ⟨hgoing, hrunning, hscope⟩ | ⟨hfinished, hempty, hscope⟩
  · cases call with
    | plan connective group =>
      by_cases hopen : ∃ ids, (e.session id).Records group ids
      · obtain ⟨ids, hids⟩ := hopen
        rw [Call.effect, hlawful.plan_open hrunning connective group ids hids]
        exact hself
      · have hplan := hgoing.plan b hrunning connective fun ids hids => hopen ⟨ids, hids⟩
        exact .of_session hplan.1 hrunning hscope hplan.2
    | release group =>
      by_cases hopen : ∃ ids, (e.session id).Records group ids
      · obtain ⟨ids, hids⟩ := hopen
        have hrelease := hgoing.release b (get?_eq_some_iff.2 hids)
        exact .of_session hrelease.2.2 hrunning hscope hrelease.2.1.session
      · rw [Call.effect, hlawful.release_none group fun ids hids => hopen ⟨ids, hids⟩]
        exact hself
    | finish =>
      obtain ⟨groups, hempty, hsession⟩ := (hlawful.finish_first hrunning).2.session
      refine .inr ?_
      rw [Call.effect, hsession]
      exact ⟨rfl, hempty, rfl⟩
  · have hsame : call.effect id e = e := by
      cases call with
      | plan connective group => exact congrArg Prod.snd (hlawful.plan_finished hfinished _ _)
      | release group =>
        exact congrArg Prod.snd
          (hlawful.release_none group fun ids => not_records_of_isEmpty hempty)
      | finish => exact congrArg Prod.snd (hlawful.finish_again hfinished)
    rw [hsame]
    exact hself

theorem Stage.effects (b : Begun id files e₀) (h : Stage id e₀ e) (calls : List Call) :
    Stage id e₀ (Call.effects id calls e) := by
  induction calls generalizing e with
  | nil => exact h
  | cons call rest ih => exact ih (h.effect b call)

/-- A session in any state of the engine, after any calls: whatever call comes next, it does what it
should. -/
theorem calls_lawful (h : Reachable e) (now : Duration) (range : Option KeyRange) (quota : Int64)
    (calls : List Call) : Ensures (openAt now range quota) e fun r e₀ =>
      r = .ok e.sessions.size ∧
        Lawful e.sessions.size (Call.effects e.sessions.size calls e₀) := by
  refine (ensures_openAt now range quota e).mono ?_
  intro r e₀ hjoined
  obtain ⟨files, s, rfl, rfl, hgroups, hrunning, hpinned, hscope⟩ := id hjoined
  obtain ⟨hholding, hempty, -, -, hpinned⟩ := hjoined.session h.holding
  have hsession : ({ e with files, sessions := e.sessions.push s } : Engine).session
      e.sessions.size = s := by simp [Engine.session]
  have b : Begun e.sessions.size e.files { e with files, sessions := e.sessions.push s } := by
    refine ⟨hholding, h.indexed, hempty, hpinned, ?_⟩
    rw [hsession]
    exact (BaseTable.distinct_of_reachable h).sublist hscope
  refine ⟨rfl, Stage.lawful b (Stage.effects b (.inl ⟨.start b, ?_, rfl⟩) calls)⟩
  rw [hsession]
  exact hrunning

end

/-- Asks for the one term that the segment of the faulty store has. -/
def wanted : Group := [⟨"a", .text, some 0, .eq [120]⟩]

/-- The matches are open, and closing what they read is going to fail. -/
def served : Engine :=
  Call.effects Query.Request.faultyStore.sessions.size [.plan .and wanted]
    (openAt 0 (some .full) 1000 Query.Request.faultyStore).2

theorem served_released :
    (Cursor.close 1 served).1 = .error .searchAfterClose ∧
      (Session.release Query.Request.faultyStore.sessions.size wanted served).1 = .ok () ∧
        Released Query.Request.faultyStore.sessions.size wanted [1] served
          (Session.release Query.Request.faultyStore.sessions.size wanted served).2 := by
  have hreach : Reachable Query.Request.faultyStore := Reachable.start.steps _
  have hrecords : (served.session Query.Request.faultyStore.sessions.size).Records wanted [1] :=
    get?_eq_some_iff.1 (by decide +kernel)
  refine ⟨by decide +kernel, ?_⟩
  exact (calls_lawful hreach 0 (some .full) 1000 [.plan .and wanted]).2.release_open wanted [1]
    hrecords

end Session
end SecondaryIndex
