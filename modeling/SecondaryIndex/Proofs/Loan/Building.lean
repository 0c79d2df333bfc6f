import SecondaryIndex.Proofs.Loan.Planning

namespace SecondaryIndex.Loan

open Act Cursor

/-- Whatever segments are found among the candidates of a group, `P` allows them. -/
def Allows (P : List Segment → Prop) (e₀ : Engine) : Prop :=
  ∀ e : Engine, e.indexes = e₀.indexes → ∀ scope connective group cands,
    Candidate.ofGroup e scope connective group = .ok cands →
      ∀ c ∈ cands, ∀ found, found.Sublist c.segments → P found

/-- The cursors that the open groups of a session list. -/
def Recorded (e : Engine) (id : SessionId) (x : Nat) : Prop :=
  ∃ g ids, (e.session id).groups.get? g = some ids ∧ x ∈ ids

structure Grows (id : SessionId) (e e' : Engine) : Prop where
  sessions : ∃ groups, e'.sessions = e.sessions.modify id fun s => { s with groups }
  kept : ∀ g ids, (e.session id).groups.get? g = some ids →
    (e'.session id).groups.get? g = some ids
  keys : ∀ g ∈ (e.session id).groups.keys, g ∈ (e'.session id).groups.keys

theorem session_congr {e e' : Engine} {id : SessionId} (h : e'.sessions = e.sessions) :
    e'.session id = e.session id := by rw [Engine.session, h, Engine.session]

theorem session_updateSession (e : Engine) (id id' : SessionId) (change : Session → Session) :
    (e.updateSession id change).session id' =
      if id = id' ∧ id' < e.sessions.size then change (e.session id') else e.session id' := by
  simp only [Engine.session, Engine.updateSession, Array.getD_eq_getD_getElem?,
    Array.getElem?_modify]
  by_cases h : id = id' <;> by_cases h' : id' < e.sessions.size <;> simp [h, h']

theorem lt_size_of_running {e : Engine} {id : SessionId} (h : ¬ (e.session id).finished) :
    id < e.sessions.size := by
  by_contra hge
  rw [Engine.session, Array.getD_eq_getD_getElem?, Array.getElem?_eq_none (Nat.not_lt.1 hge)] at h
  exact h rfl

theorem mem_keys_iff {g : Group} {groups : Std.TreeMap Group (List CursorId) Group.compare} :
    g ∈ groups.keys ↔ groups.getKey? g = some g := by
  rw [← Std.TreeMap.map_fst_toList_eq_keys, List.mem_map]
  constructor
  · rintro ⟨⟨g, ids⟩, hmem, rfl⟩
    exact (Std.TreeMap.mem_toList_iff_getKey?_eq_some_and_getElem?_eq_some.1 hmem).1
  · intro hg
    have hmem : g ∈ groups := Std.TreeMap.mem_of_getKey?_eq_some hg
    exact ⟨(g, groups[g]), Std.TreeMap.mem_toList_iff_getKey?_eq_some_and_getElem?_eq_some.2
      ⟨hg, Std.TreeMap.getElem?_eq_some_getElem hmem⟩, rfl⟩

theorem get?_eq_none_iff {g : Group} {groups : Std.TreeMap Group (List CursorId) Group.compare} :
    groups.get? g = none ↔ ¬ groups.contains g := by
  rw [Std.TreeMap.get?_eq_getElem?, Std.TreeMap.contains_eq_isSome_getElem?,
    Option.not_isSome_iff_eq_none]

theorem Grows.of_eq {id : SessionId} {e e' : Engine} (h : e'.sessions = e.sessions) :
    Grows id e e' where
  sessions := by
    refine ⟨(e.session id).groups, ?_⟩
    rw [h]
    apply Array.ext_getElem?
    intro i
    rw [Array.getElem?_modify]
    split
    next hi =>
      subst hi
      cases hs : e.sessions[id]? <;> simp [Engine.session, hs]
    next => rfl
  kept g ids hg := by
    rw [session_congr h]
    exact hg
  keys g hg := by
    rw [session_congr h]
    exact hg

theorem modify_modify {α : Type} (a : Array α) (i : Nat) (f g : α → α) :
    (a.modify i f).modify i g = a.modify i (g ∘ f) := by
  apply Array.ext_getElem?
  intro j
  simp only [Array.getElem?_modify]
  split
  · rw [Option.map_map]
  · rfl

theorem Grows.trans {id : SessionId} {e e' e'' : Engine} (h : Grows id e e')
    (h' : Grows id e' e'') : Grows id e e'' where
  sessions := by
    obtain ⟨groups, hs⟩ := h.sessions
    obtain ⟨groups', hs'⟩ := h'.sessions
    refine ⟨groups', ?_⟩
    rw [hs', hs, modify_modify]
    rfl
  kept g ids hg := h'.kept g ids (h.kept g ids hg)
  keys g hg := h'.keys g (h.keys g hg)

theorem Grows.session {id : SessionId} {e e' : Engine} (h : Grows id e e') :
    ∃ groups, e'.session id = { e.session id with groups } := by
  obtain ⟨groups, hs⟩ := h.sessions
  simp only [Engine.session, hs, Array.getD_eq_getD_getElem?, Array.getElem?_modify, if_true]
  cases e.sessions[id]? with
  | none => exact ⟨Session.ended.groups, rfl⟩
  | some s => exact ⟨groups, rfl⟩

theorem Grows.recorded {id : SessionId} {e e' : Engine} (h : Grows id e e') {x : Nat}
    (hx : Recorded e id x) : Recorded e' id x :=
  have ⟨g, ids, hg, hmem⟩ := hx
  ⟨g, ids, h.kept g ids hg, hmem⟩

/-- A group that is open after a step and was not before. -/
structure Added (id : SessionId) (e e' : Engine) (g : Group) (ids : List CursorId) : Prop where
  new : (e.session id).groups.get? g = none
  listed : (e'.session id).groups.get? g = some ids

namespace Added

variable {id : SessionId} {e e' e'' : Engine} {g : Group} {ids : List CursorId}

theorem of_later (hg : Added id e' e'' g ids) (h : Grows id e e') : Added id e e'' g ids where
  new := Option.eq_none_iff_forall_ne_some.2 fun ids' hids' =>
    nomatch hg.new.symm.trans (h.kept g ids' hids')
  listed := hg.listed

theorem of_earlier (hg : Added id e e' g ids) (h : Grows id e' e'') : Added id e e'' g ids where
  new := hg.new
  listed := h.kept g ids hg.listed

theorem split (hg : Added id e e'' g ids) (h : Grows id e' e'') :
    Added id e e' g ids ∨ Added id e' e'' g ids := by
  cases hg' : (e'.session id).groups.get? g with
  | none => exact .inr ⟨hg', hg.listed⟩
  | some ids' =>
    obtain rfl := Option.some.inj ((h.kept g ids' hg').symm.trans hg.listed)
    exact .inl ⟨hg.new, hg'⟩

end Added

theorem ensures_sessionState_bind {β : Type} {e : Engine} {id : SessionId} {next : Session → Act β}
    {Q : Except Fault β → Engine → Prop} :
    Ensures (Session.state id >>= next) e Q ↔ Ensures (next (e.session id)) e Q := by
  rw [ensures_bind]
  rfl

theorem ensures_candidates_bind {β : Type} {e : Engine} {id : SessionId} {connective : Connective}
    {group : Group} {next : List Candidate → Act β} {Q : Except Fault β → Engine → Prop} :
    Ensures (Session.candidates id connective group >>= next) e Q ↔
      match Candidate.ofGroup e (e.session id).scope connective group with
      | .ok cands => Ensures (next cands) e Q
      | .error f => Q (.error f) e := by
  rw [ensures_bind, Session.candidates, ensures_sessionState_bind, ensures_get_bind, ensures_settle]
  cases Candidate.ofGroup e (e.session id).scope connective group <;> rfl

section

variable {e : Engine} {id : SessionId} {connective : Connective} {group : Group}
  {Q : Except Fault Merge → Engine → Prop}

theorem ensures_plan_finished (hfinished : (e.session id).finished) :
    Ensures (Session.plan id connective group) e Q ↔ Q (.error .sessionFinished) e := by
  rw [Session.plan, ensures_sessionState_bind]
  simp only [if_pos hfinished, ensures_throw_bind]

theorem ensures_plan_open (hrunning : ¬ (e.session id).finished)
    (hopen : (e.session id).groups.contains group) :
    Ensures (Session.plan id connective group) e Q ↔ Q (.error .groupOpen) e := by
  rw [Session.plan, ensures_sessionState_bind]
  simp only [if_neg hrunning, if_pos hopen, ensures_throw_bind]

theorem ensures_plan (hrunning : ¬ (e.session id).finished)
    (hnew : ¬ (e.session id).groups.contains group) :
    Ensures (Session.plan id connective group) e Q ↔
      match Candidate.ofGroup e (e.session id).scope connective group with
      | .ok cands => Ensures (Session.openAll cands) e fun
        | .ok ids, e' => Q (.ok (ids.foldl (Merge.takeIn e'.cursors) { connective }))
            (e'.updateSession id fun s => { s with groups := s.groups.insert group ids })
        | .error f, e' => Q (.error f) e'
      | .error f => Q (.error f) e := by
  rw [Session.plan, ensures_sessionState_bind]
  simp only [if_neg hrunning, if_neg hnew, ensures_candidates_bind]
  cases Candidate.ofGroup e (e.session id).scope connective group with
  | error f => rfl
  | ok cands =>
    have hadd : ∀ (ids : List CursorId) (e' : Engine),
        Ensures (do
          let merge ← ({ connective } : Merge).addAll (ids.map some)
          Session.update id fun s => { s with groups := s.groups.insert group ids }
          return merge) e' Q ↔
        Q (.ok (ids.foldl (Merge.takeIn e'.cursors) { connective }))
          (e'.updateSession id fun s => { s with groups := s.groups.insert group ids }) := by
      intro ids e'
      rw [ensures_bind, Merge.ensures_addAll, List.filterMap_map, Function.id_comp,
        List.filterMap_some]
      rfl
    refine ensures_bind.trans (ensures_congr fun r e' => ?_)
    cases r with
    | error f => rfl
    | ok ids => exact hadd ids e'

/-- Planning leaves the engine alone, or it opens the matches of all candidates. -/
theorem ensures_plan_of (finished : (e.session id).finished → Q (.error .sessionFinished) e)
    (opened : (e.session id).groups.contains group → Q (.error .groupOpen) e)
    (failed : ∀ f, Candidate.ofGroup e (e.session id).scope connective group = .error f →
      Q (.error f) e)
    (planned : ∀ cands, ¬ (e.session id).finished → ¬ (e.session id).groups.contains group →
      Candidate.ofGroup e (e.session id).scope connective group = .ok cands →
        Ensures (Session.openAll cands) e fun
          | .ok ids, e' => Q (.ok (ids.foldl (Merge.takeIn e'.cursors) { connective }))
              (e'.updateSession id fun s => { s with groups := s.groups.insert group ids })
          | .error f, e' => Q (.error f) e') :
    Ensures (Session.plan id connective group) e Q := by
  by_cases hfinished : (e.session id).finished
  · rw [ensures_plan_finished hfinished]
    exact finished hfinished
  by_cases hopen : (e.session id).groups.contains group
  · rw [ensures_plan_open hfinished hopen]
    exact opened hopen
  rw [ensures_plan hfinished hopen]
  cases hcands : Candidate.ofGroup e (e.session id).scope connective group with
  | error f => exact failed f hcands
  | ok cands => exact planned cands hfinished hopen hcands

end

/-- What a query comes to: something built from matches, or an empty list of tokens. -/
def Result (n : Nat) (cs : Array Cursor) (x : Nat) : Prop :=
  Outer n cs x ∨ IsMemory cs x ∧ Merge.admits cs x = false

variable {P : List Segment → Prop} {e₀ e e' e'' : Engine} {S H : List Nat} {id : SessionId}

namespace Borrowed

theorem closeAll {ids : List Nat} (h : Borrowed P e₀ e S H)
    (hids : ∀ x ∈ ids, Outer e₀.cursors.size e.cursors x) :
    Ensures (Cursor.closeAll ids) e fun _ e' =>
      Borrowed P e₀ e' S H ∧ Closes e.cursors e'.cursors := by
  refine (ensures_all (I := fun rest e' => (∀ x ∈ rest, x ∈ ids) ∧ Borrowed P e₀ e' S H ∧
    Closes e.cursors e'.cursors) ⟨fun _ hx => hx, h, .refl _⟩ ?_).mono fun _ _ h => h.2
  rintro x rest e' ⟨hsub, h', hc⟩
  have hx := (hids x (hsub x (by simp))).extends hc.ext
  refine (closeOuter h' hx (Nat.lt_succ_self x)).mono ?_
  rintro _ e'' ⟨h'', hc', -⟩
  exact ⟨fun y hy => hsub y (List.mem_cons_of_mem x hy), h'', hc.trans hc'⟩

theorem pushPlain {c : Cursor} (h : Borrowed P e₀ e S H) (hc : c.source.Plain) :
    Planned P e₀ e { e with cursors := e.cursors.push c } S H [] := by
  have hquiet : c.lent = [] ∧ owned (e.cursors.push c) c = [] ∧ c.source.handedOut = false ∧
      ∀ m segments, c.source ≠ .matches m segments := by
    rcases c with ⟨_, s, _, _, _⟩
    cases hc <;> refine ⟨rfl, rfl, rfl, ?_⟩ <;> rintro _ _ ⟨⟩
  obtain ⟨hlent, howned, hout, hne⟩ := hquiet
  refine ⟨Borrowed.push ?_ (fun m segments hs => absurd hs (hne m segments)) hout, .push _ _,
    (Opens.refl _ _).push_of_ne hne⟩
  rw [hlent, howned]
  exact h

theorem buildMerge {m : Merge} (h : Borrowed P e₀ e S H)
    (hm : ∀ x ∈ m.inputs, Outer e₀.cursors.size e.cursors x) :
    Ensures m.build e fun r e' => Planned P e₀ e e' S H [] ∧
      ∀ x, r = .ok (some x) → Result e₀.cursors.size e'.cursors x := by
  have hmerge : ∀ source : Source, (source = .union m.inputs ∨ source = .intersection m.inputs) →
      m.inputs ≠ [] → Ensures (Cursor.openAs { extent := m.extent, source }) e fun r e' =>
        Planned P e₀ e e' S H [] ∧ ∀ x, r = .ok x → Result e₀.cursors.size e'.cursors x := by
    intro source hs hne
    rw [ensures_openAs]
    refine ⟨h.pushPlain ?_, ?_⟩
    · rcases hs with rfl | rfl
      · exact .union _
      · exact .intersection _
    · rintro _ ⟨⟩
      refine .inl (.merge h.size_le Array.getElem?_push_size hs hne
        (fun k hk => (hm k hk).lt_size) ?_)
      exact fun k hk => (hm k hk).extends (.push _ _)
  have hcombine : m.inputs ≠ [] → Ensures m.combine e fun r e' => Planned P e₀ e e' S H [] ∧
      ∀ x, r = .ok x → Result e₀.cursors.size e'.cursors x := by
    intro hne
    rw [Merge.combine]
    split
    · exact hmerge _ (.inl rfl) hne
    split
    · refine (h.closeAll hm).bind (Q := fun r e' => Planned P e₀ e e' S H [] ∧
        ∀ x, r = .ok x → Result e₀.cursors.size e'.cursors x) ?_ ?_
      · rintro _ e₁ ⟨h₁, hc⟩
        rw [ensures_openAs]
        refine ⟨(Planned.of_closes h₁ hc).trans (h₁.pushPlain (.tokens [] none)), ?_⟩
        rintro _ ⟨⟩
        refine .inr ⟨⟨_, Array.getElem?_push_size, rfl, rfl⟩, ?_⟩
        simp [Merge.admits, Merge.extentOf, Cursor.empty, Cursor.ofTokens, Extent.ofTokens]
      · rintro f e₁ ⟨h₁, hc⟩
        refine ⟨.of_closes h₁ hc, ?_⟩
        rintro _ ⟨⟩
    · exact hmerge _ (.inr rfl) hne
  rw [Merge.build]
  split
  · refine ⟨.of_eq h rfl, ?_⟩
    rintro _ ⟨⟩
  next x hx =>
    refine ⟨.of_eq h rfl, ?_⟩
    rintro _ ⟨⟩
    exact .inl (hm x (by simp [hx]))
  next hne _ =>
    rw [ensures_map]
    refine (hcombine hne).mono ?_
    rintro (f | x) e₁ ⟨h₁, hx⟩
    · refine ⟨h₁, ?_⟩
      rintro _ ⟨⟩
    · refine ⟨h₁, ?_⟩
      rintro _ ⟨⟩
      exact hx x rfl

end Borrowed

structure Built (P : List Segment → Prop) (id : SessionId) (e₀ e e' : Engine) (S H : List Nat) :
    Prop where
  held : Borrowed P { e₀ with sessions := e'.sessions } e' S H
  ext : Extends e.cursors e'.cursors
  grows : Grows id e e'
  added : ∀ g ids, Added id e e' g ids → ∀ x ∈ ids, Outer e₀.cursors.size e'.cursors x
  opened : ∀ x, e.cursors.size ≤ x → IsOpen e'.cursors x →
    ∃ g ids, Added id e e' g ids ∧ x ∈ ids

theorem Built.outer (h : Built P id e₀ e e' S H) (x : Nat) (hx : Recorded e' id x) :
    Recorded e id x ∨ Outer e₀.cursors.size e'.cursors x := by
  obtain ⟨g, ids, hg, hx⟩ := hx
  cases hg' : (e.session id).groups.get? g with
  | none => exact .inr (h.added g ids ⟨hg', hg⟩ x hx)
  | some ids' =>
    obtain rfl := Option.some.inj ((h.grows.kept g ids' hg').symm.trans hg)
    exact .inl ⟨g, ids', hg', hx⟩

theorem Built.opens (h : Built P id e₀ e e' S H) (x : Nat) (hle : e.cursors.size ≤ x)
    (hopen : IsOpen e'.cursors x) : Recorded e' id x :=
  have ⟨g, ids, hg, hx⟩ := h.opened x hle hopen
  ⟨g, ids, hg.listed, hx⟩

theorem Planned.built (h : Planned P { e₀ with sessions := e.sessions } e e' S H []) :
    Built P id e₀ e e' S H := by
  have hs : e'.sessions = e.sessions := h.held.untouched.sessions
  have hsession : e'.session id = e.session id := session_congr hs
  refine ⟨?_, h.ext, .of_eq hs, ?_, fun x hle hopen => by cases h.opens x hle hopen⟩
  · rw [hs]
    exact h.held
  · rintro g ids ⟨hnew, hg⟩
    rw [hsession, hnew] at hg
    cases hg

theorem Built.refl (h : Borrowed P { e₀ with sessions := e.sessions } e S H) :
    Built P id e₀ e e S H :=
  Planned.built (.of_eq h rfl)

theorem Built.trans (h : Built P id e₀ e e' S H) (h' : Built P id e₀ e' e'' S H) :
    Built P id e₀ e e'' S H where
  held := h'.held
  ext := h.ext.trans h'.ext
  grows := h.grows.trans h'.grows
  added g ids hg x hx := by
    rcases hg.split h'.grows with hg | hg
    · exact (h.added g ids hg x hx).extends h'.ext
    · exact h'.added g ids hg x hx
  opened x hle hopen := by
    by_cases hlt : x < e'.cursors.size
    · obtain ⟨g, ids, hg, hx⟩ := h.opened x hle (hopen.of_extends h'.ext hlt)
      exact ⟨g, ids, hg.of_earlier h'.grows, hx⟩
    · obtain ⟨g, ids, hg, hx⟩ := h'.opened x (Nat.not_lt.1 hlt) hopen
      exact ⟨g, ids, hg.of_later h.grows, hx⟩

/-- Matches that were opened for a new group are recorded in it. -/
theorem Planned.record {ids : List Nat} {group : Group}
    (h : Planned P { e₀ with sessions := e.sessions } e e' S H ids)
    (hids : ∀ x ∈ ids, Outer e₀.cursors.size e'.cursors x)
    (hrunning : ¬ (e.session id).finished) (hnew : ¬ (e.session id).groups.contains group) :
    Built P id e₀ e
      (e'.updateSession id fun s => { s with groups := s.groups.insert group ids }) S H := by
  have hsessions : e'.sessions = e.sessions := h.held.untouched.sessions
  have hlt := lt_size_of_running hrunning
  have hsession :
      (e'.updateSession id fun s => { s with groups := s.groups.insert group ids }).session id =
        { e.session id with groups := (e.session id).groups.insert group ids } := by
    rw [session_updateSession, if_pos ⟨rfl, hsessions ▸ hlt⟩, Engine.session, hsessions,
      Engine.session]
  have hget : ∀ g : Group, ((e.session id).groups.insert group ids).get? g =
      if Group.compare group g = .eq then some ids else (e.session id).groups.get? g := by
    intro g
    exact Std.TreeMap.getElem?_insert
  -- The group is new, so that inserting it hides no entry.
  have hother : ∀ g, g ∈ (e.session id).groups → Group.compare group g ≠ .eq := by
    intro g hg heq
    rw [Std.TreeMap.contains_congr heq] at hnew
    exact hnew (Std.TreeMap.contains_iff_mem.2 hg)
  refine ⟨h.held.withSessions _, h.ext, ⟨⟨(e.session id).groups.insert group ids, ?_⟩, ?_, ?_⟩,
    ?_, ?_⟩
  · apply Array.ext_getElem?
    intro i
    simp only [Engine.updateSession, hsessions, Array.getElem?_modify]
    split
    next hi =>
      subst hi
      simp [Engine.session, hlt]
    next => rfl
  · intro g listed hg
    rw [hsession, hget, if_neg (hother g (Std.TreeMap.mem_iff_isSome_getElem?.2 ?_)), hg]
    rw [Std.TreeMap.get?_eq_getElem?] at hg
    rw [hg]
    rfl
  · intro g hg
    rw [mem_keys_iff] at hg ⊢
    rw [hsession, Std.TreeMap.getKey?_insert,
      if_neg (hother g (Std.TreeMap.mem_of_getKey?_eq_some hg)), hg]
  · rintro g listed ⟨hunlisted, hg⟩ x hx
    rw [hsession, hget, hunlisted] at hg
    split at hg <;> cases hg
    exact hids x hx
  · intro x hle hopen
    refine ⟨group, ids, ⟨?_, ?_⟩, h.opens x hle hopen⟩
    · exact get?_eq_none_iff.2 hnew
    · rw [hsession, hget, if_pos Std.ReflCmp.compare_self]

theorem plan {connective : Connective} {group : Group}
    (h : Borrowed P { e₀ with sessions := e.sessions } e S H) (hP : Allows P e₀) :
    Ensures (Session.plan id connective group) e fun r e' => Built P id e₀ e e' S H ∧
      ∀ m, r = .ok m → m.connective = connective ∧
        ∀ x ∈ m.inputs, Outer e₀.cursors.size e'.cursors x := by
  have hself : Built P id e₀ e e S H := .refl h
  refine ensures_plan_of (fun _ => ⟨hself, nofun⟩) (fun _ => ⟨hself, nofun⟩)
    (fun _ _ => ⟨hself, nofun⟩) fun cands hrunning hnew hcands => ?_
  refine (h.openAll cands (hP e h.untouched.indexes _ _ _ cands hcands)).mono ?_
  rintro (f | ids) e₁ h₁
  · exact ⟨h₁.built, nofun⟩
  · refine ⟨h₁.1.record h₁.2 hrunning hnew, ?_⟩
    rintro _ ⟨⟩
    rw [Merge.foldl_takeIn_connective, Merge.foldl_takeIn_inputs, List.nil_append]
    exact ⟨rfl, fun x hx => h₁.2 x (List.mem_of_mem_filter hx)⟩

def Sound (n : Nat) (cs : Array Cursor) (m : Merge) : Prop := ∀ x ∈ m.inputs, Outer n cs x

theorem start {connective : Connective} {group : Group}
    (h : Borrowed P { e₀ with sessions := e.sessions } e S H) (hP : Allows P e₀) :
    Ensures (Query.start id connective group) e fun r e' => Built P id e₀ e e' S H ∧
      ∀ m, r = .ok (some m) → Sound e₀.cursors.size e'.cursors m := by
  rw [Query.start]
  split
  · refine ⟨.refl h, ?_⟩
    rintro _ ⟨⟩
    exact nofun
  refine (plan h hP).bind ?_ ?_
  · rintro m e₁ ⟨h₁, hm⟩
    rw [ensures_pure]
    refine ⟨h₁, ?_⟩
    split <;> rintro _ ⟨⟩
    exact (hm m rfl).2
  · rintro f e₁ ⟨h₁, -⟩
    exact ⟨h₁, nofun⟩

theorem Result.add {n : Nat} {m : Merge} {x : Nat} (h : Result n e.cursors x)
    (hm : Sound n e.cursors m) : Sound n e.cursors (m.takeIn e.cursors x) := by
  intro y hy
  rw [Merge.takeIn_inputs, List.mem_append, List.mem_filter, List.mem_singleton] at hy
  rcases hy with hy | ⟨rfl, hcount⟩
  · exact hm y hy
  · rcases h with h | ⟨-, hno⟩
    · exact h
    · rw [hno] at hcount
      cases hcount

theorem join {m : Merge} {part : Query} {build : Act (Option CursorId)}
    (hbuild : Ensures build e fun r e' => Built P id e₀ e e' S H ∧
      ∀ x, r = .ok (some x) → Result e₀.cursors.size e'.cursors x)
    (h : Borrowed P { e₀ with sessions := e.sessions } e S H)
    (hm : Sound e₀.cursors.size e.cursors m) :
    Ensures (Query.join m part build) e fun r e' => Built P id e₀ e e' S H ∧
      ∀ m, r = .ok (some m) → Sound e₀.cursors.size e'.cursors m := by
  rw [Query.join]
  split
  · refine ⟨.refl h, ?_⟩
    rintro _ ⟨⟩
    exact hm
  refine hbuild.bind ?_ ?_
  · rintro (_ | x) e₁ ⟨h₁, hx⟩
    · refine ⟨h₁, ?_⟩
      split <;> rintro _ ⟨⟩
      exact fun y hy => (hm y hy).extends h₁.ext
    · simp only [ensures_map, Merge.ensures_add]
      refine ⟨h₁, ?_⟩
      rintro _ ⟨⟩
      exact (hx x rfl).add fun y hy => (hm y hy).extends h₁.ext
  · rintro f e₁ ⟨h₁, -⟩
    exact ⟨h₁, nofun⟩

/-- Building a query, by induction on its parts. -/
theorem build (q : Query) (h : Borrowed P { e₀ with sessions := e.sessions } e S H)
    (hP : Allows P e₀) : Ensures (q.build id) e fun r e' => Built P id e₀ e e' S H ∧
      ∀ x, r = .ok (some x) → Result e₀.cursors.size e'.cursors x := by
  induction q generalizing e with
  | absent => exact ⟨.refl h, nofun⟩
  | node connective group left right ihl ihr =>
    rw [Query.build]
    refine (start h hP).bind ?_ fun f e₁ h₁ => ⟨h₁.1, nofun⟩
    rintro (_ | m) e₁ ⟨h₁, hm⟩
    · exact ⟨h₁, nofun⟩
    refine (join (ihl h₁.held) h₁.held (hm m rfl)).bind ?_ fun f e₂ h₂ => ⟨h₁.trans h₂.1, nofun⟩
    rintro (_ | m) e₂ ⟨h₂, hm⟩
    · exact ⟨h₁.trans h₂, nofun⟩
    refine (join (ihr h₂.held) h₂.held (hm m rfl)).bind ?_
      fun f e₃ h₃ => ⟨(h₁.trans h₂).trans h₃.1, nofun⟩
    rintro (_ | m) e₃ ⟨h₃, hm⟩
    · exact ⟨(h₁.trans h₂).trans h₃, nofun⟩
    refine (Borrowed.buildMerge h₃.held (hm m rfl)).mono ?_
    rintro r e₄ ⟨h₄, hx⟩
    exact ⟨((h₁.trans h₂).trans h₃).trans h₄.built, hx⟩

end SecondaryIndex.Loan
