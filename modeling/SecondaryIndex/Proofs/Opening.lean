import SecondaryIndex.Proofs.Holding
import SecondaryIndex.Proofs.Loan.Building

namespace SecondaryIndex

/-- The indexes that the conditions of a group are made on. -/
def Group.indexes (g : Group) : List IndexId := g.filterMap Condition.index

namespace Query

def groups : Query → List Group
  | absent => []
  | node _ group left right =>
    (if group.isEmpty then [] else [group]) ++ (left.groups ++ right.groups)

end Query

/-- Of the groups that a session has open after a step, only those in `gs` are new. -/
structure Opening (id : SessionId) (gs : List Group) (e e' : Engine) : Prop where
  finished : (e'.session id).finished = (e.session id).finished
  scope : (e'.session id).scope = (e.session id).scope
  keys : ∀ g ∈ (e'.session id).groups.keys, g ∈ (e.session id).groups.keys ∨ g ∈ gs

namespace Opening

variable {id : SessionId} {gs gs' : List Group} {e e' e'' : Engine}

theorem of_eq (h : e'.sessions = e.sessions) : Opening id gs e e' := by
  have hsession : e'.session id = e.session id := Loan.session_congr h
  exact ⟨by rw [hsession], by rw [hsession], fun g hg => .inl (hsession ▸ hg)⟩

theorem groups (h : Opening id gs e e') (g : Group) (hg : (e'.session id).groups.contains g) :
    (e.session id).groups.contains g ∨ ∃ g' ∈ gs, Group.compare g' g = .eq := by
  have hmem : g ∈ (e'.session id).groups := hg
  have hsame := Std.TreeMap.compare_getKey_self hmem
  have hkey := Loan.mem_keys_iff.2
    ((Std.TreeMap.getKey?_congr hsame).trans (Std.TreeMap.getKey?_eq_some_getKey hmem))
  refine (h.keys _ hkey).imp (fun hold => ?_) fun hnew => ⟨_, hnew, hsame⟩
  rw [← Std.TreeMap.contains_congr hsame]
  exact Std.TreeMap.mem_of_getKey?_eq_some (Loan.mem_keys_iff.1 hold)

/-- Opening groups makes a session hold no indexes but those of their conditions. -/
theorem holds (h : Opening id gs e e') (hgrows : Loan.Grows id e e')
    (hpublished : e'.published = e.published) (hhandles : e'.handles = e.handles) {i : IndexId}
    (hi : e'.holds i = true) : e.holds i = true ∨ ∃ g ∈ gs, i ∈ g.indexes := by
  rw [Engine.holds_iff, hpublished, hhandles] at hi
  rcases hi with hi | hi | ⟨k, s', hk, g, hg, c, hc, hi⟩
  · exact .inl (Engine.holds_iff.2 (.inl hi))
  · exact .inl (Engine.holds_iff.2 (.inr (.inl hi)))
  obtain ⟨groups, hsessions⟩ := hgrows.sessions
  rw [hsessions, Array.getElem?_modify] at hk
  by_cases hid : id = k
  · rw [if_pos hid] at hk
    subst hid
    obtain ⟨s, hs, rfl⟩ := Option.map_eq_some_iff.1 hk
    have hkeys := h.keys g
    simp only [Engine.session, hsessions, Array.getD_eq_getD_getElem?, Array.getElem?_modify, hs,
      if_true, Option.map_some, Option.getD_some] at hkeys
    refine (hkeys hg).imp (fun hold => ?_) fun hnew => ⟨g, hnew, List.mem_filterMap.2 ⟨c, hc, hi⟩⟩
    exact Engine.holds_iff.2 (.inr (.inr ⟨id, s, hs, g, hold, c, hc, hi⟩))
  · rw [if_neg hid] at hk
    exact .inl (Engine.holds_iff.2 (.inr (.inr ⟨k, s', hk, g, hg, c, hc, hi⟩)))

theorem trans (h : Opening id gs e e') (h' : Opening id gs' e' e'') :
    Opening id (gs ++ gs') e e'' where
  finished := h'.finished.trans h.finished
  scope := h'.scope.trans h.scope
  keys g hg := by
    rcases h'.keys g hg with hg | hg
    · exact (h.keys g hg).imp_right fun hg => List.mem_append_left _ hg
    · exact .inr (List.mem_append_right _ hg)

theorem mono (h : Opening id gs e e') (hsub : ∀ g ∈ gs, g ∈ gs') : Opening id gs' e e' :=
  { h with keys := fun g hg => (h.keys g hg).imp_right (hsub g) }

end Opening

def OpensOnly {α : Type} (id : SessionId) (gs : List Group) (act : Act α) : Prop :=
  ∀ e, Ensures act e fun _ e' => Opening id gs e e'

namespace OpensOnly

variable {α β : Type} {id : SessionId} {gs gs' : List Group} {act : Act α} {next : α → Act β}

theorem of_framed (h : Framed act) : OpensOnly id gs act :=
  fun e => (h.frame e).mono fun _ _ hf => .of_eq hf.sessions

theorem bind (h : OpensOnly id gs act) (hnext : ∀ a, OpensOnly id gs' (next a)) :
    OpensOnly id (gs ++ gs') (act >>= next) := by
  intro e
  refine (h e).bind (fun a e' ho => ?_) fun _ _ ho => ho.mono fun g hg => List.mem_append_left _ hg
  exact (hnext a e').mono fun _ _ ho' => ho.trans ho'

theorem ite {c : Prop} [Decidable c] {act' : Act α} (h : OpensOnly id gs act)
    (h' : OpensOnly id gs act') : OpensOnly id gs (if c then act else act') := by
  split
  · exact h
  · exact h'

end OpensOnly

namespace Session

theorem opens_update (id : SessionId) (group : Group) (opened : List CursorId) (e : Engine) :
    Opening id [group] e
      (e.updateSession id fun s => { s with groups := s.groups.insert group opened }) := by
  have hsession := Loan.session_updateSession e id id
    fun s => { s with groups := s.groups.insert group opened }
  split at hsession
  · refine ⟨by rw [hsession], by rw [hsession], fun g hg => ?_⟩
    rw [hsession, Loan.mem_keys_iff, Std.TreeMap.getKey?_insert] at hg
    split at hg
    · exact .inr (List.mem_singleton.2 (Option.some.inj hg).symm)
    · exact .inl (Loan.mem_keys_iff.2 hg)
  · exact ⟨by rw [hsession], by rw [hsession], fun g hg => .inl (hsession ▸ hg)⟩

theorem opensOnly_plan (id : SessionId) (k : Connective) (group : Group) :
    OpensOnly id [group] (plan id k group) := by
  intro e
  have hsame : Opening id [group] e e := .of_eq rfl
  refine Loan.ensures_plan_of (fun _ => hsame) (fun _ => hsame) (fun _ _ => hsame) ?_
  intro cands _ _ _
  refine ((framed_openAll cands).frame e).mono ?_
  rintro (f | opened) e₁ hf
  · exact .of_eq hf.sessions
  · have hopened : Opening id [] e e₁ := .of_eq hf.sessions
    exact hopened.trans (opens_update id group opened e₁)

end Session

namespace Query

variable {id : SessionId}

theorem opensOnly_start (k : Connective) (group : Group) :
    OpensOnly id (if group.isEmpty then [] else [group]) (start id k group) := by
  rw [start]
  split
  · exact .of_framed (.pure _)
  · exact fun e => ((Session.opensOnly_plan id k group e).bind (fun _ _ h => h) fun _ _ h => h)

theorem opensOnly_join {m : Merge} {part : Query} {build : Act (Option CursorId)}
    (h : OpensOnly id part.groups build) : OpensOnly id part.groups (join m part build) := by
  rw [join]
  refine .ite (.of_framed (.pure _)) fun e => (h e).bind (fun o e' ho => ?_) fun _ _ h => h
  cases o with
  | none => exact ho
  | some x =>
    rw [ensures_map, Merge.ensures_add]
    exact ho

theorem opensOnly_build (q : Query) : OpensOnly id q.groups (q.build id) := by
  induction q with
  | absent => exact .of_framed (.pure _)
  | node k group left right ihl ihr =>
    rw [build]
    refine (opensOnly_start k group).bind fun o => ?_
    cases o with
    | none => exact .of_framed (.pure _)
    | some m =>
      refine (opensOnly_join ihl).bind fun o => ?_
      cases o with
      | none => exact .of_framed (.pure _)
      | some m =>
        rw [← List.append_nil right.groups]
        refine (opensOnly_join ihr).bind fun o => ?_
        cases o with
        | none => exact .of_framed (.pure _)
        | some m => exact .of_framed (Merge.framed_build m)

end Query
end SecondaryIndex
