import SecondaryIndex.Proofs.Holding
import SecondaryIndex.Proofs.Loan.Building
import SecondaryIndex.Proofs.Loan.Still
import SecondaryIndex.Proofs.Pinning
import SecondaryIndex.Query.Run

namespace SecondaryIndex.Loan

open Act Cursor

/-- A query is under way in a session that was opened in `e₀`. -/
structure Underway (id : SessionId) (e₀ e : Engine) : Prop where
  held : Borrowed (fun _ => True) { e₀ with sessions := e.sessions } e [] []
  outer : ∀ x, Recorded e id x → Outer e₀.cursors.size e.cursors x
  opens : ∀ x, e₀.cursors.size ≤ x → IsOpen e.cursors x → Recorded e id x
  others : ∀ i : Nat, i ≠ id → e.sessions[i]? = e₀.sessions[i]?

variable {id : SessionId} {e₀ e e' : Engine}

theorem not_recorded (h : (e.session id).groups = ∅) {x : Nat} : ¬ Recorded e id x := by
  rintro ⟨g, ids, hg, -⟩
  rw [h] at hg
  cases hg

theorem Underway.start (h : (e.session id).groups = ∅) : Underway id e e where
  held := .refl _ e
  outer _ hx := absurd hx (not_recorded h)
  opens _ hle hopen := absurd hopen.lt_size (Nat.not_lt.2 hle)
  others _ _ := rfl

theorem Underway.built (h : Underway id e₀ e) (h' : Built (fun _ => True) id e₀ e e' [] []) :
    Underway id e₀ e' where
  held := h'.held
  outer x hx := by
    rcases h'.outer x hx with hx | hx
    · exact (h.outer x hx).extends h'.ext
    · exact hx
  opens x hle hopen := by
    by_cases hlt : x < e.cursors.size
    · exact h'.grows.recorded (h.opens x hle (hopen.of_extends h'.ext hlt))
    · exact h'.opens x (Nat.not_lt.1 hlt) hopen
  others i hi := by
    obtain ⟨groups, hs⟩ := h'.grows.sessions
    rw [hs, Array.getElem?_modify, if_neg (Ne.symm hi), h.others i hi]

theorem Underway.stills (h : Underway id e₀ e) {cursors : Array Cursor}
    (hs : Stills e.cursors cursors) : Underway id e₀ { e with cursors } where
  held := h.held.stills hs
  outer x hx := (h.outer x hx).extends hs.extends
  opens x hle hopen :=
    h.opens x hle (hopen.of_extends hs.extends (hs.size_eq ▸ hopen.lt_size))
  others := h.others

theorem Borrowed.closeQuietly {P : List Segment → Prop} {S H ids : List Nat}
    (h : Borrowed P e₀ e S H) (hids : ∀ x ∈ ids, Outer e₀.cursors.size e.cursors x) :
    Ensures (Cursor.closeQuietly ids) e fun r e' => r = .ok () ∧ Borrowed P e₀ e' S H ∧
      Closes e.cursors e'.cursors ∧ ∀ x ∈ ids, 0 < closes e'.cursors x := by
  refine Ensures.and (R := fun r _ => r = .ok ()) (allQuietly_fst _ _ _) ?_
  -- The rest of the list is still to be closed; what came before it is closed.
  refine (ensures_allQuietly (I := fun rest e' => (∀ x ∈ rest, x ∈ ids) ∧ Borrowed P e₀ e' S H ∧
    Closes e.cursors e'.cursors ∧ ∀ x ∈ ids, x ∈ rest ∨ 0 < closes e'.cursors x)
    ⟨fun _ hx => hx, h, .refl _, fun _ hx => .inl hx⟩ ?_).mono ?_
  · rintro y rest e' ⟨hsub, h', hc, hdone⟩
    have hy := (hids y (hsub y (by simp))).extends hc.ext
    refine (h'.closeOuter hy (Nat.lt_succ_self y)).mono ?_
    rintro _ e'' ⟨h'', hc', hcalls⟩
    refine ⟨fun x hx => hsub x (List.mem_cons_of_mem y hx), h'', hc.trans hc', fun x hx => ?_⟩
    rcases hdone x hx with hx | hx
    · rcases List.mem_cons.1 hx with rfl | hx
      · exact .inr hcalls
      · exact .inl hx
    · exact .inr (hx.trans_le (hc'.ext.closes_le x))
  · rintro _ e' ⟨-, h', hc, hdone⟩
    exact ⟨h', hc, fun x hx => (hdone x hx).resolve_left nofun⟩

/-- A session without groups is not needed to hold an index. -/
theorem holding_of_others (hold : e₀.Holding) (hempty : (e₀.session id).groups = ∅)
    (hindexes : e.indexes = e₀.indexes) (hpublished : e.published = e₀.published)
    (hhandles : e.handles = e₀.handles)
    (hothers : ∀ i : Nat, i ≠ id → e.sessions[i]? = e₀.sessions[i]?) : e.Holding := by
  refine hold.mono hindexes ⟨fun _ _ hi => hpublished ▸ hi, fun _ hi => hhandles ▸ hi, ?_⟩
  intro k s hk g hg
  by_cases hid : k = id
  · subst hid
    rw [Engine.session, Array.getD_eq_getD_getElem?, hk, Option.getD_some] at hempty
    rw [hempty] at hg
    cases hg
  · exact ⟨s, by rw [hothers k hid, hk], hg⟩

section

variable {group : Group} {ids : List CursorId}

theorem session_erased (hgroup : (e.session id).groups.get? group = some ids) :
    (e.updateSession id fun s => { s with groups := s.groups.erase group }).session id =
      { e.session id with groups := (e.session id).groups.erase group } := by
  have hlt : id < e.sessions.size := by
    by_contra hge
    rw [Engine.session, Array.getD_eq_getD_getElem?,
      Array.getElem?_eq_none (Nat.not_lt.1 hge)] at hgroup
    cases hgroup
  rw [session_updateSession, if_pos ⟨rfl, hlt⟩]

theorem get?_erased (hgroup : (e.session id).groups.get? group = some ids) (g : Group) :
    ((e.updateSession id fun s => { s with groups := s.groups.erase group }).session id).groups.get?
      g = if Group.compare group g = .eq then none else (e.session id).groups.get? g := by
  rw [session_erased hgroup]
  exact Std.TreeMap.getElem?_erase

theorem get?_of_compare_eq {g : Group} (heq : Group.compare group g = .eq) :
    (e.session id).groups.get? g = (e.session id).groups.get? group :=
  (Std.TreeMap.getElem?_congr heq).symm

theorem compare_ne_of_get? {g : Group} (hgroup : (e.session id).groups.get? group = none)
    (hg : (e.session id).groups.get? g = some ids) : Group.compare group g ≠ .eq := by
  intro heq
  rw [get?_of_compare_eq heq, hgroup] at hg
  cases hg

theorem exists_key {g : Group} (hg : (e.session id).groups.get? g = some ids) :
    ∃ g' ∈ (e.session id).groups.keys, Group.compare g' g = .eq := by
  rw [Std.TreeMap.get?_eq_getElem?,
    Std.TreeMap.getElem?_eq_some_iff_exists_compare_eq_eq_and_mem_toList] at hg
  obtain ⟨g', heq, hmem⟩ := hg
  refine ⟨g', ?_, Std.OrientedCmp.eq_symm heq⟩
  rw [← Std.TreeMap.map_fst_toList_eq_keys]
  exact List.mem_map_of_mem hmem

/-- What releasing a group makes of `e`, where the group lists `ids`. -/
structure Forgotten (P : List Segment → Prop) (id : SessionId) (group : Group)
    (ids : List CursorId) (e₀ e e' : Engine) (S H : List Nat) : Prop where
  listed : (e.session id).groups.get? group = some ids
  held : Borrowed P { e₀ with sessions := e'.sessions } e' S H
  sessions : e'.sessions =
    (e.updateSession id fun s => { s with groups := s.groups.erase group }).sessions
  closes : Closes e.cursors e'.cursors
  closed : ∀ x ∈ ids, 0 < Loan.closes e'.cursors x

theorem Borrowed.forgetGroup {P : List Segment → Prop} {S H : List Nat}
    (h : Borrowed P { e₀ with sessions := e.sessions } e S H)
    (hgroup : (e.session id).groups.get? group = some ids)
    (hids : ∀ x ∈ ids, Outer e₀.cursors.size e.cursors x) :
    Ensures (Cursor.closeQuietly ids)
      (e.updateSession id fun s => { s with groups := s.groups.erase group }) fun r e' =>
        r = .ok () ∧ Forgotten P id group ids e₀ e e' S H := by
  have h₁ := h.withSessions
    (e.updateSession id fun s => { s with groups := s.groups.erase group }).sessions
  refine (h₁.closeQuietly hids).mono ?_
  rintro r e' ⟨hr, h', hc, hclosed⟩
  have hsessions := h'.untouched.sessions
  exact ⟨hr, hgroup, hsessions ▸ h', hsessions, hc, hclosed⟩

namespace Forgotten

variable {P : List Segment → Prop} {S H : List Nat}

theorem get? (h : Forgotten P id group ids e₀ e e' S H) (g : Group) :
    (e'.session id).groups.get? g =
      if Group.compare group g = .eq then none else (e.session id).groups.get? g := by
  rw [session_congr h.sessions]
  exact get?_erased h.listed g

theorem others (h : Forgotten P id group ids e₀ e e' S H) {i : Nat} (hi : i ≠ id) :
    e'.sessions[i]? = e.sessions[i]? := by
  rw [h.sessions, Engine.updateSession, Array.getElem?_modify, if_neg (Ne.symm hi)]

theorem get?_of_some (h : Forgotten P id group ids e₀ e e' S H) {g : Group}
    {ids' : List CursorId} (hg : (e'.session id).groups.get? g = some ids') :
    (e.session id).groups.get? g = some ids' ∧ Group.compare group g ≠ .eq := by
  rw [h.get?] at hg
  split at hg
  · cases hg
  next hne => exact ⟨hg, hne⟩

theorem get?_of_isOpen (h : Forgotten P id group ids e₀ e e' S H) {g : Group}
    {ids' : List CursorId} (hg : (e.session id).groups.get? g = some ids') {x : Nat}
    (hx : x ∈ ids') (hopen : IsOpen e'.cursors x) :
    (e'.session id).groups.get? g = some ids' := by
  by_cases heq : Group.compare group g = .eq
  · rw [get?_of_compare_eq heq, h.listed] at hg
    cases hg
    obtain ⟨c, _, _, hc, -, hzero⟩ := hopen
    have hclosed := h.closed x hx
    rw [closes_of_getElem? hc, hzero] at hclosed
    exact absurd hclosed (Nat.lt_irrefl 0)
  · rw [h.get?, if_neg heq, hg]

end Forgotten

theorem Underway.forgotten (h : Underway id e₀ e)
    (h' : Forgotten (fun _ => True) id group ids e₀ e e' [] []) : Underway id e₀ e' where
  held := h'.held
  outer := by
    rintro x ⟨g, ids', hg, hx⟩
    exact (h.outer x ⟨g, ids', (h'.get?_of_some hg).1, hx⟩).extends h'.closes.ext
  opens x hle hopen := by
    obtain ⟨g, ids', hg, hx⟩ :=
      h.opens x hle (hopen.of_extends h'.closes.ext (h'.closes.size ▸ hopen.lt_size))
    exact ⟨g, ids', h'.get?_of_isOpen hg hx hopen, hx⟩
  others i hi := (h'.others hi).trans (h.others i hi)

end

/-- A group that is open is forgotten, and then what it lists is closed. -/
theorem ensures_release_some {group : Group} {ids : List CursorId}
    (hgroup : (e.session id).groups.get? group = some ids)
    (hholding : (e.updateSession id fun s => { s with groups := s.groups.erase group }).Holding)
    {Q : Except Fault Unit → Engine → Prop}
    (hclose : Ensures (Cursor.closeQuietly ids)
      (e.updateSession id fun s => { s with groups := s.groups.erase group }) Q) :
    Ensures (Session.release id group) e Q := by
  rw [Session.release, ensures_sessionState_bind, hgroup, Session.update, ensures_modify_bind]
  refine (Catalog.reclaim_idle hholding).bind_ok ?_
  rintro _ rfl
  exact hclose

theorem Underway.ensures_release (h : Underway id e₀ e) (hold : e₀.Holding)
    (hempty : (e₀.session id).groups = ∅) {group : Group} {ids : List CursorId}
    (hgroup : (e.session id).groups.get? group = some ids) {Q : Except Fault Unit → Engine → Prop}
    (hclose : Ensures (Cursor.closeQuietly ids)
      (e.updateSession id fun s => { s with groups := s.groups.erase group }) Q) :
    Ensures (Session.release id group) e Q := by
  refine ensures_release_some hgroup (holding_of_others hold hempty h.held.untouched.indexes
    h.held.untouched.published h.held.untouched.handles fun i hi => ?_) hclose
  rw [← h.others i hi, Engine.updateSession, Array.getElem?_modify, if_neg (Ne.symm hi)]

theorem ensures_release_none {group : Group} (hgroup : (e.session id).groups.get? group = none)
    {Q : Except Fault Unit → Engine → Prop} :
    Ensures (Session.release id group) e Q ↔ Q (.ok ()) e := by
  rw [Session.release, ensures_sessionState_bind, hgroup]
  rfl

theorem Underway.release (h : Underway id e₀ e) (hold : e₀.Holding)
    (hempty : (e₀.session id).groups = ∅) (group : Group) :
    Ensures (Session.release id group) e fun r e' => r = .ok () ∧ Underway id e₀ e' ∧
      ∀ g ids, (e'.session id).groups.get? g = some ids →
        (e.session id).groups.get? g = some ids ∧ Group.compare group g ≠ .eq := by
  cases hgroup : (e.session id).groups.get? group with
  | none =>
    rw [ensures_release_none hgroup]
    exact ⟨rfl, h, fun g ids hg => ⟨hg, compare_ne_of_get? hgroup hg⟩⟩
  | some ids =>
    refine h.ensures_release hold hempty hgroup ((h.held.forgetGroup hgroup fun x hx =>
      h.outer x ⟨group, ids, hgroup, hx⟩).mono ?_)
    rintro r e' ⟨hr, h'⟩
    exact ⟨hr, h.forgotten h', fun g ids' hg => h'.get?_of_some hg⟩

theorem ensures_releaseAll {I : Engine → Prop} {gs : List Group}
    (step : ∀ group ∈ gs, ∀ e, I e → Ensures (Session.release id group) e fun r e' =>
      r = .ok () ∧ I e' ∧ ∀ g ids, (e'.session id).groups.get? g = some ids →
        (e.session id).groups.get? g = some ids ∧ Group.compare group g ≠ .eq) (h : I e) :
    Ensures (Session.releaseAll id gs) e fun r e' => r = .ok () ∧ I e' ∧
      ∀ g ids, (e'.session id).groups.get? g = some ids →
        (e.session id).groups.get? g = some ids ∧ ∀ g' ∈ gs, Group.compare g' g ≠ .eq := by
  induction gs generalizing e with
  | nil => exact ⟨rfl, h, fun g ids hg => ⟨hg, nofun⟩⟩
  | cons group rest ih =>
    rw [List.forall_mem_cons] at step
    rw [Session.releaseAll]
    refine (step.1 e h).bind_ok ?_
    rintro e₁ ⟨h₁, hleft⟩
    refine (ih step.2 h₁).mono ?_
    rintro r e₂ ⟨hr, h₂, hleft'⟩
    refine ⟨hr, h₂, fun g ids hg => ?_⟩
    obtain ⟨hg, hrest⟩ := hleft' g ids hg
    obtain ⟨hg, hgroup⟩ := hleft g ids hg
    exact ⟨hg, List.forall_mem_cons.2 ⟨hgroup, hrest⟩⟩

theorem Underway.releaseAll (h : Underway id e₀ e) (hold : e₀.Holding)
    (hempty : (e₀.session id).groups = ∅) (groups : List Group) :
    Ensures (Session.releaseAll id groups) e fun r e' => r = .ok () ∧ Underway id e₀ e' ∧
      ∀ g ids, (e'.session id).groups.get? g = some ids →
        (e.session id).groups.get? g = some ids ∧ ∀ g' ∈ groups, Group.compare g' g ≠ .eq :=
  ensures_releaseAll (fun group _ _ h => h.release hold hempty group) h

/-- Releasing all that is open leaves nothing open. -/
theorem Underway.releaseKeys (h : Underway id e₀ e) (hold : e₀.Holding)
    (hempty : (e₀.session id).groups = ∅) :
    Ensures (Session.releaseAll id (e.session id).groups.keys) e fun r e' =>
      r = .ok () ∧ Underway id e₀ e' ∧ ∀ g ids, (e'.session id).groups.get? g ≠ some ids := by
  refine (h.releaseAll hold hempty _).mono ?_
  rintro r e' ⟨hr, h', hleft⟩
  refine ⟨hr, h', fun g ids hg => ?_⟩
  obtain ⟨hg, hkeys⟩ := hleft g ids hg
  obtain ⟨g', hmem, heq⟩ := exists_key hg
  exact hkeys g' hmem heq

theorem lentFrom_eq_nil {n : Nat} {cs : Array Cursor} (h : ∀ x, n ≤ x → ¬ IsOpen cs x) :
    lentFrom n cs = [] ∧ ownedFrom n cs = [] := by
  have hquiet : ∀ c ∈ cs.toList.drop n, c.lent = [] ∧ owned cs c = [] := by
    intro c hc
    obtain ⟨k, hk⟩ := List.mem_iff_getElem?.1 hc
    rw [List.getElem?_drop, Array.getElem?_toList] at hk
    rcases hs : c.source with _ | _ | _ | ⟨m, segments⟩
    case «matches» =>
      have hcalls : c.closes ≠ 0 := fun hzero =>
        h (n + k) (by omega) ⟨c, m, segments, hk, hs, hzero⟩
      simp [Cursor.lent, owned, hs, hcalls]
    all_goals simp [Cursor.lent, owned, hs]
  exact ⟨List.flatMap_eq_nil_iff.2 fun c hc => (hquiet c hc).1,
    List.flatMap_eq_nil_iff.2 fun c hc => (hquiet c hc).2⟩

/-- What the engine looks like when a session is over: all segments are as they were, and every
cursor that a segment handed out in between has been closed once. -/
structure Settled (e₀ e : Engine) : Prop where
  segments : e.segments = e₀.segments
  handedOut : ∀ (x : Nat) c, e₀.cursors.size ≤ x → e.cursors[x]? = some c →
    c.source.handedOut = true → c.closes = 1

theorem Borrowed.segments_eq {P : List Segment → Prop} {S H : List Nat} (h : Borrowed P e₀ e S H)
    (hclosed : ∀ x, e₀.cursors.size ≤ x → ¬ IsOpen e.cursors x) (i : Nat) :
    e.segments[i]? = e₀.segments[i]?.map fun state =>
      { state with refs := state.refs + S.count i } := by
  rw [h.segments, (lentFrom_eq_nil hclosed).1, List.nil_append]

theorem Borrowed.settled {P : List Segment → Prop} (h : Borrowed P e₀ e [] [])
    (hclosed : ∀ x, e₀.cursors.size ≤ x → ¬ IsOpen e.cursors x) : Settled e₀ e := by
  constructor
  · apply Array.ext_getElem?
    intro i
    rw [h.segments_eq hclosed]
    exact Option.map_id'
  · intro x c hle hc hout
    have honce := h.once x hle (.inr ⟨c, hc, hout⟩)
    simp only [(lentFrom_eq_nil hclosed).2, List.append_nil, List.count_nil, Nat.add_zero] at honce
    rwa [closes_of_getElem? hc] at honce

theorem Underway.settled (h : Underway id e₀ e)
    (hnone : ∀ g ids, (e.session id).groups.get? g ≠ some ids) : Settled e₀ e := by
  have hclosed : ∀ x, e₀.cursors.size ≤ x → ¬ IsOpen e.cursors x := fun x hle hopen => by
    obtain ⟨g, ids, hg, -⟩ := h.opens x hle hopen
    exact hnone g ids hg
  exact ⟨(h.held.settled hclosed).segments, (h.held.settled hclosed).handedOut⟩

theorem Underway.update (h : Underway id e₀ e) (change : Session → Session)
    (hgroups : ∀ s, (change s).groups = s.groups) :
    Underway id e₀ (e.updateSession id change) ∧
      ((e.updateSession id change).session id).groups = (e.session id).groups := by
  have hsame : ((e.updateSession id change).session id).groups = (e.session id).groups := by
    rw [session_updateSession]
    split
    · rw [hgroups]
    · rfl
  refine ⟨⟨h.held.withSessions _, ?_, ?_, ?_⟩, hsame⟩
  · rintro x ⟨g, ids, hg, hx⟩
    exact h.outer x ⟨g, ids, hsame ▸ hg, hx⟩
  · intro x hle hopen
    obtain ⟨g, ids, hg, hx⟩ := h.opens x hle hopen
    exact ⟨g, ids, hsame.symm ▸ hg, hx⟩
  · intro i hi
    rw [← h.others i hi, Engine.updateSession, Array.getElem?_modify, if_neg (Ne.symm hi)]

theorem Underway.finish (h : Underway id e₀ e) (hold : e₀.Holding)
    (hempty : (e₀.session id).groups = ∅) (hrunning : (e.session id).finished = false)
    {files : Array FileState}
    (hpinned : DataFile.Pinned files e.files ((e.session id).scope.map DataFile.id)) :
    Ensures (Session.finish id) e fun _ e' => Settled e₀ e' ∧ e'.files = files := by
  rw [Session.finish, ensures_sessionState_bind]
  simp only [hrunning, Bool.false_eq_true, if_false, Session.update, ensures_modify_bind]
  obtain ⟨h₁, hgroups⟩ := h.update (fun s => { s with finished := true }) fun _ => rfl
  rw [← hgroups]
  refine (h₁.releaseKeys hold hempty).bind_ok ?_
  rintro e₂ ⟨h₂, hnone⟩
  have hsettled : Settled e₀ e₂ := h₂.settled hnone
  have hfiles : e₂.files = e.files := h₂.held.untouched.files.trans h.held.untouched.files.symm
  have hpinned₂ : DataFile.Pinned files e₂.files ((e.session id).scope.map DataFile.id ++ []) := by
    rw [hfiles, List.append_nil]
    exact hpinned
  refine (DataFile.Pinned.releaseAll hpinned₂).bind ?_ ?_
  · rintro _ _ ⟨⟨_, rfl⟩, h₃⟩
    exact ⟨⟨hsettled.segments, hsettled.handedOut⟩, h₃.eq⟩
  · rintro _ _ ⟨⟨_, rfl⟩, h₃⟩
    exact ⟨⟨hsettled.segments, hsettled.handedOut⟩, h₃.eq⟩

/-- A query is under way, and its session is still to be finished. -/
structure Serves (id : SessionId) (e₀ e : Engine) : Prop where
  underway : Underway id e₀ e
  running : (e.session id).finished = false
  scope : (e.session id).scope = (e₀.session id).scope

theorem Serves.built (h : Serves id e₀ e) (h' : Built (fun _ => True) id e₀ e e' [] []) :
    Serves id e₀ e' := by
  obtain ⟨groups, hsession⟩ := h'.grows.session
  exact ⟨h.underway.built h', hsession ▸ h.running, hsession ▸ h.scope⟩

theorem Serves.stills (h : Serves id e₀ e) {cursors : Array Cursor}
    (hs : Stills e.cursors cursors) : Serves id e₀ { e with cursors } :=
  ⟨h.underway.stills hs, h.running, h.scope⟩

theorem ensures_act {α : Type} {act : Act α} {p : Query.Progress}
    {Q : Except Fault α → Query.Progress → Prop} :
    Ensures (Query.Request.act act) p Q ↔
      Ensures act p.engine fun r engine => Q r { p with engine } := Iff.rfl

/-- A step of a run that leaves an invariant of the engine in force. -/
def Steady (I : Engine → Prop) {α : Type} (step : Query.Step α) : Prop :=
  ∀ p, I p.engine → Ensures step p fun _ p' => I p'.engine

def Unmoved (I : Engine → Prop) : Prop :=
  ∀ e cursors, I e → Stills e.cursors cursors → I { e with cursors }

variable {I : Engine → Prop}

namespace Steady

variable {α β : Type} {step : Query.Step α} {next : α → Query.Step β}

theorem pure (a : α) : Steady I (pure a : Query.Step α) := fun _ h => h

theorem throw (f : Fault) : Steady I (throw f : Query.Step α) := fun _ h => h

theorem get : Steady I (get : Query.Step Query.Progress) := fun _ h => h

theorem modify {change : Query.Progress → Query.Progress} (h : ∀ p, (change p).engine = p.engine) :
    Steady I (modify change : Query.Step PUnit) := by
  intro p hp
  rw [ensures_modify, h]
  exact hp

theorem bind (h : Steady I step) (hnext : ∀ a, Steady I (next a)) :
    Steady I (step >>= next) := fun p hp =>
  (h p hp).bind (fun a p' hp' => hnext a p' hp') fun _ _ hp' => hp'

theorem ite {c : Prop} [Decidable c] {step' : Query.Step α} (h : Steady I step)
    (h' : Steady I step') : Steady I (if c then step else step') := by
  split
  · exact h
  · exact h'

theorem pull {step : Pull.Step α} (hI : Unmoved I) (h : Pull.Still step) :
    Steady I (Query.Request.act (Act.pull step)) := fun p hp =>
  hI p.engine _ hp (h p.engine.cursors)

end Steady

section

variable (r : Query.Request)

open Query.Request

theorem steady_checkpoint (session : SessionId) : Steady I (r.checkpoint session) := by
  intro p hp
  rw [Query.Request.checkpoint, Query.Request.readClock]
  simp only [bind_assoc, ensures_get_bind, ensures_set_bind, pure_bind]
  rw [ensures_act, Session.checkpoint, ensures_sessionState_bind]
  split
  · exact hp
  · exact hp

theorem steady_scan (session : SessionId) : Steady I (r.scan session) := by
  rw [Query.Request.scan]
  exact .bind (.modify fun _ => rfl) fun _ => .bind .get fun _ =>
    .ite (steady_checkpoint r session) (.pure _)

theorem steady_emit (t : Token) : Steady I (r.emit t) := by
  rw [Query.Request.emit]
  refine .bind (.modify fun _ => rfl) fun _ => .bind .get fun p => ?_
  dsimp only
  cases r.consume p.rows with
  | error f => exact .throw f
  | ok more => cases more <;> exact .pure _

theorem steady_offer (session : SessionId) (range : KeyRange) (t : Token) :
    Steady I (r.offer session range t) := by
  rw [Query.Request.offer]
  refine .ite (.pure _) (.bind (steady_scan r session) fun _ => .ite (.pure _) ?_)
  cases r.passes t with
  | error f => exact .throw f
  | ok passes =>
    cases passes with
    | false => exact .pure _
    | true => exact steady_emit r t

theorem steady_drain (hI : Unmoved I) (session : SessionId) (range : KeyRange) (cursor : CursorId)
    (fuel : Nat) : Steady I (r.drain session range cursor fuel) := by
  induction fuel with
  | zero => exact .pure _
  | succ fuel ih =>
    rw [Query.Request.drain]
    refine .bind (.pull hI ?_) fun more => .ite (.pure _) (.bind (.pull hI ?_) fun t => ?_)
    · exact Pull.still_law.cursor_hasNext cursor
    · exact Pull.still_law.cursor_next cursor
    · exact .bind (steady_offer r session range t) fun more => .ite ih (.pure _)

theorem steady_deliver (hI : Unmoved I) (session : SessionId) (cursor : Option CursorId) :
    Steady I (r.deliver session cursor) := by
  unfold Query.Request.deliver
  split
  next cursor range _ =>
    refine .ite (.pure _) (.bind (.pull hI ?_) fun _ => .bind .get fun p => ?_)
    · exact Pull.still_law.cursor_skipTo cursor _
    · exact steady_drain r hI session range cursor _
  next => exact .pure _

/-- What planning and building leaves in force holds after all that is done in a session. -/
theorem steady_inSession (hI : Unmoved I)
    (hbuild : ∀ e, I e → Ensures (r.query.build id) e fun _ e' => I e') :
    Steady I (r.inSession id) := by
  rw [Query.Request.inSession]
  refine .bind (fun p hp => ?_) fun cursor => .bind (steady_checkpoint r id) fun _ =>
    steady_deliver r hI id cursor
  rw [ensures_act]
  exact hbuild p.engine hp

end

def Joined (e : Engine) (r : Except Fault SessionId) (e' : Engine) : Prop :=
  ∃ (files : Array FileState) (s : Session), r = .ok e.sessions.size ∧
    e' = { e with files, sessions := e.sessions.push s } ∧ s.groups = ∅ ∧ s.finished = false ∧
      DataFile.Pinned e.files files (s.scope.map DataFile.id) ∧ s.scope.Sublist e.live

theorem ensures_openAt (now : Duration) (range : Option KeyRange) (quota : Int64) (e : Engine) :
    Ensures (Session.openAt now range quota) e (Joined e) := by
  rw [Session.openAt]
  refine (BaseTable.ensures_pin range e).bind ?_ ?_
  · rintro scope _ ⟨⟨files, rfl⟩, _, ⟨⟩, hpinned, hlive, -⟩
    exact ⟨files, _, rfl, rfl, rfl, rfl, hpinned, hlive⟩
  · rintro f _ ⟨-, _, hf, -⟩
    cases hf

theorem fewer_push (e : Engine) (files : Array FileState) (s : Session) :
    e.Fewer { e with files, sessions := e.sessions.push s } := by
  refine ⟨fun _ _ h => h, fun _ h => h, fun k s' hk g hg => ⟨s', ?_, hg⟩⟩
  have hlt := (Array.getElem?_eq_some_iff.1 hk).1
  rw [Array.getElem?_push, if_neg (by omega), hk]

theorem ensures_thenFinish {id : SessionId} {work : Query.Step Unit} {p : Query.Progress}
    {Q : Except Fault Unit → Query.Progress → Prop} :
    Ensures (Query.Request.thenFinish id work) p Q ↔ Ensures work p fun r p' =>
      Ensures (Session.finish id) p'.engine fun _ engine => Q r { p' with engine } := Iff.rfl

/-- A run without a query changes nothing. Any other run opens a session and ends with finishing it,
and what holds from its opening on, whatever is done in it, holds until then. -/
theorem ensures_inOwnSession {I : Engine → Engine → Prop} (r : Query.Request) (p : Query.Progress)
    {Q : Engine → Prop} (same : Q p.engine)
    (opened : ∀ e₁, Joined p.engine (.ok p.engine.sessions.size) e₁ → I e₁ e₁)
    (steady : ∀ e₁, Steady (I e₁) (r.inSession p.engine.sessions.size))
    (done : ∀ e₁ e₂, Joined p.engine (.ok p.engine.sessions.size) e₁ → I e₁ e₂ →
      Ensures (Session.finish p.engine.sessions.size) e₂ fun _ e₃ => Q e₃) :
    Ensures r.inOwnSession p fun _ p' => Q p'.engine := by
  rw [Query.Request.inOwnSession]
  by_cases habsent : r.query.isAbsent
  · rw [if_pos habsent, ensures_throw_bind]
    exact same
  simp only [if_neg habsent, Query.Request.readClock, bind_assoc, ensures_get_bind,
    ensures_set_bind, pure_bind]
  refine Ensures.bind (R := fun r p' => Joined p.engine r p'.engine)
    (ensures_act.2 (ensures_openAt _ _ _ _)) ?_ ?_
  · intro session p₁ hjoined
    obtain ⟨_, _, ⟨⟩, -⟩ := id hjoined
    rw [ensures_thenFinish]
    refine (steady p₁.engine p₁ (opened p₁.engine hjoined)).mono ?_
    exact fun _ p₂ hI => done p₁.engine p₂.engine hjoined hI
  · rintro f _ ⟨_, _, hf, -⟩
    cases hf

theorem Serves.unmoved : Unmoved (Serves id e₀) := fun _ _ h hs => h.stills hs

/-- A query that a run builds in its own session is under way until the session is finished. -/
theorem ensures_serving (r : Query.Request) (p : Query.Progress) {Q : Engine → Prop}
    (same : Q p.engine) (done : ∀ e₁ e₂, Joined p.engine (.ok p.engine.sessions.size) e₁ →
      Serves p.engine.sessions.size e₁ e₂ →
        Ensures (Session.finish p.engine.sessions.size) e₂ fun _ e₃ => Q e₃) :
    Ensures r.inOwnSession p fun _ p' => Q p'.engine := by
  refine ensures_inOwnSession (I := Serves p.engine.sessions.size) r p same ?_ ?_ done
  · rintro e₁ ⟨files, s, -, rfl, hgroups, hrunning, -⟩
    have hsession : ({ p.engine with files, sessions := p.engine.sessions.push s } : Engine).session
        p.engine.sessions.size = s := by simp [Engine.session]
    rw [← hsession] at hgroups hrunning
    exact ⟨.start hgroups, hrunning, rfl⟩
  · refine fun e₁ => steady_inSession r Serves.unmoved fun e he => ?_
    refine (build r.query he.underway.held fun _ _ _ _ _ _ _ _ _ _ _ => trivial).mono ?_
    exact fun _ _ h => he.built h.1

theorem Joined.session (h : Joined e (.ok e.sessions.size) e') (hold : e.Holding) : e'.Holding ∧
    (e'.session e.sessions.size).groups = ∅ ∧ e'.segments = e.segments ∧ e'.cursors = e.cursors ∧
      DataFile.Pinned e.files e'.files ((e'.session e.sessions.size).scope.map DataFile.id) := by
  obtain ⟨files, s, -, rfl, hgroups, -, hpinned, -⟩ := h
  have hsession : ({ e with files, sessions := e.sessions.push s } : Engine).session
      e.sessions.size = s := by
    simp [Engine.session]
  rw [hsession]
  exact ⟨hold.mono rfl (fewer_push e files s), hgroups, rfl, rfl, hpinned⟩

/-- A run leaves the files and segments as they were, and has closed what segments handed out. -/
theorem run_settled (r : Query.Request) (hold : e.Holding) :
    Settled e (r.run e).2 ∧ (r.run e).2.files = e.files := by
  refine ensures_serving r { engine := e } (Q := fun e' => Settled e e' ∧ e'.files = e.files)
    ⟨⟨rfl, ?_⟩, rfl⟩ fun e₁ e₂ hjoined hserves => ?_
  · exact fun x c hle hc => absurd (Array.getElem?_eq_some_iff.1 hc).1 (Nat.not_lt.2 hle)
  obtain ⟨hold₁, hgroups, hsegments, hcursors, hpinned⟩ := hjoined.session hold
  have hunder := hserves.underway
  have hfiles : e₂.files = e₁.files := hunder.held.untouched.files
  rw [← hserves.scope, ← hfiles] at hpinned
  refine (hunder.finish hold₁ hgroups hserves.running hpinned).mono ?_
  rintro _ e₃ ⟨⟨hsettled, hout⟩, hback⟩
  exact ⟨⟨hsettled.trans hsegments, hcursors ▸ hout⟩, hback⟩

end SecondaryIndex.Loan
