import SecondaryIndex.Proofs.Holding.Kept
import SecondaryIndex.Proofs.Serving

namespace SecondaryIndex

/-- A comparison tells which of two values comes before the other: a strict order, in which just
equal values do not come one before the other. -/
structure Sorts {α : Type} (compare : α → α → Ordering) (before equal : α → α → Prop) : Prop where
  lt_iff : ∀ a b, compare a b = .lt ↔ before a b
  irrefl : ∀ a, ¬ before a a
  trans : ∀ a b c, before a b → before b c → before a c
  total : ∀ a b, (¬ before a b ∧ ¬ before b a) ↔ equal a b

theorem Sorts.of_trans {α : Type} {compare : α → α → Ordering} [Std.TransCmp compare]
    {before equal : α → α → Prop} (hlt : ∀ a b, compare a b = .lt ↔ before a b)
    (heq : ∀ a b, compare a b = .eq ↔ equal a b) : Sorts compare before equal where
  lt_iff := hlt
  irrefl a h := by
    have hself : compare a a = .eq := Std.ReflCmp.compare_self
    rw [← hlt, hself] at h
    cases h
  trans a b c hab hbc := by
    rw [← hlt] at hab hbc ⊢
    exact Std.TransCmp.lt_trans hab hbc
  total a b := by
    have hswap : compare b a = (compare a b).swap := Std.OrientedCmp.eq_swap
    rw [← hlt, ← hlt, ← heq, hswap]
    cases compare a b <;> decide

theorem Bytes.compare_eq_lt {a b : Bytes} : Ord.compare a b = .lt ↔ a < b := by
  induction a generalizing b with
  | nil =>
    cases b with
    | nil => exact ⟨nofun, fun h => absurd h (List.lt_irrefl _)⟩
    | cons y b => exact ⟨fun _ => List.nil_lt_cons y b, fun _ => rfl⟩
  | cons x a ih =>
    cases b with
    | nil => exact ⟨nofun, fun h => absurd h (List.not_lt_nil _)⟩
    | cons y b =>
      rw [List.compare_cons_cons, Ordering.then_eq_lt, Std.compare_eq_lt,
        Std.LawfulEqOrd.compare_eq_iff_eq, ih, List.cons_lt_cons_iff]

namespace Bound

/-- A lower value comes first, and of two equal ones the exclusive bound. -/
def Before (a b : Bound) : Prop :=
  if a.value = b.value then a.inclusive = false ∧ b.inclusive = true else a.value < b.value

theorem compare_eq_lt {a b : Bound} : Ord.compare a b = .lt ↔ a.Before b := by
  have hlex : Ord.compare a b =
      (Ord.compare a.value b.value).then (Ord.compare a.inclusive b.inclusive) := rfl
  rw [hlex, Ordering.then_eq_lt, Bytes.compare_eq_lt, Std.LawfulEqOrd.compare_eq_iff_eq, Before]
  have hflag : Ord.compare a.inclusive b.inclusive = .lt ↔
      a.inclusive = false ∧ b.inclusive = true := by
    cases a.inclusive <;> cases b.inclusive <;> decide
  rw [hflag]
  split
  next heq =>
    rw [heq, and_iff_right rfl]
    exact or_iff_right (List.lt_irrefl _)
  next hne => exact or_iff_left fun h => hne h.1

def Earlier : Option Bound → Option Bound → Prop
  | none, some _ => True
  | some a, some b => a.Before b
  | _, none => False

theorem compare_eq_lt_option {a b : Option Bound} : Ord.compare a b = .lt ↔ Earlier a b := by
  cases a with
  | none => cases b <;> simp [Earlier, Ord.compare]
  | some a =>
    cases b with
    | none => simp [Earlier, Ord.compare]
    | some b => exact compare_eq_lt

end Bound

namespace Condition

/-- Conditions are put in order by column, kind, lower bound and upper bound. -/
def Before (a b : Condition) : Prop :=
  a.column < b.column ∨ a.column = b.column ∧
    (a.predicate.rank < b.predicate.rank ∨ a.predicate.rank = b.predicate.rank ∧
      (Bound.Earlier a.predicate.lower b.predicate.lower ∨
        a.predicate.lower = b.predicate.lower ∧
          Bound.Earlier a.predicate.upper b.predicate.upper))

theorem compare_eq_lt {a b : Condition} : compare a b = .lt ↔ a.Before b := by
  have hlex : compare a b = (Ord.compare a.column b.column).then
      ((Ord.compare a.predicate.rank b.predicate.rank).then
        ((Ord.compare a.predicate.lower b.predicate.lower).then
          (Ord.compare a.predicate.upper b.predicate.upper))) := rfl
  have hcolumn : Ord.compare a.column b.column = .lt ↔ a.column < b.column :=
    compareOfLessAndEq_eq_lt
  rw [hlex, Ordering.then_eq_lt, Ordering.then_eq_lt, Ordering.then_eq_lt, hcolumn,
    Nat.compare_eq_lt, Bound.compare_eq_lt_option, Bound.compare_eq_lt_option,
    Std.LawfulEqOrd.compare_eq_iff_eq, Std.LawfulEqOrd.compare_eq_iff_eq,
    Std.LawfulEqOrd.compare_eq_iff_eq, Before]

theorem sorts : Sorts compare Before fun a b => a.same b = true :=
  .of_trans (fun _ _ => compare_eq_lt) fun _ _ => compare_eq_iff_same

end Condition

namespace Group

/-- The first two conditions that are not equal decide, and otherwise the shorter group is first. -/
def Before : Group → Group → Prop
  | [], _ :: _ => True
  | a :: g, b :: g' => a.Before b ∨ ¬ b.Before a ∧ Before g g'
  | _, [] => False

theorem compare_eq_lt {g g' : Group} : compare g g' = .lt ↔ g.Before g' := by
  induction g generalizing g' with
  | nil => cases g' <;> simp [compare, Before, List.compareLex]
  | cons a g ih =>
    cases g' with
    | nil => simp [compare, Before, List.compareLex]
    | cons b g' =>
      have hlex : compare (a :: g) (b :: g') = (Condition.compare a b).then (compare g g') :=
        List.compareLex_cons_cons
      have hswap : Condition.compare b a = (Condition.compare a b).swap := Std.OrientedCmp.eq_swap
      rw [hlex, Ordering.then_eq_lt, Before, ← Condition.compare_eq_lt, ← Condition.compare_eq_lt,
        ih, hswap]
      cases Condition.compare a b <;> simp

theorem sorts : Sorts compare Before Same :=
  .of_trans (fun _ _ => compare_eq_lt) fun _ _ => compare_eq_iff

instance : DecidableRel Same := fun g g' =>
  inferInstanceAs (Decidable (List.Forall₂ (fun a b => a.same b = true) g g'))

theorem Same.symm {g g' : Group} (h : Same g g') : Same g' g :=
  compare_eq_iff.1 (Std.OrientedCmp.eq_symm (compare_eq_iff.2 h))

theorem Same.trans {g g' g'' : Group} (h : Same g g') (h' : Same g' g'') : Same g g'' :=
  compare_eq_iff.1 (Std.TransCmp.eq_trans (compare_eq_iff.2 h) (compare_eq_iff.2 h'))

theorem same_self (g : Group) : Same g g := compare_eq_iff.1 Std.ReflCmp.compare_self

end Group

namespace Session

/-- What a session lists is what is open: a group is found just if an equal one is there, and none
is there twice. -/
structure Lists (s : Session) (groups : List Group) : Prop where
  found : ∀ group, s.groups.contains group = true ↔ ∃ g ∈ groups, group.Same g
  apart : groups.Pairwise fun g g' => ¬ g.Same g'
  size : s.groups.size = groups.length

variable {s s' : Session} {groups : List Group} {group : Group}

theorem lists_keys (s : Session) : s.Lists s.groups.keys where
  found group := by
    rw [contains_iff]
    simp only [Records, ← Std.TreeMap.map_fst_toList_eq_keys, List.mem_map]
    constructor
    · rintro ⟨ids, g, hsame, hmem⟩
      exact ⟨g, ⟨(g, ids), hmem, rfl⟩, hsame⟩
    · rintro ⟨_, ⟨p, hmem, rfl⟩, hsame⟩
      exact ⟨p.2, p.1, hsame, hmem⟩
  apart := Std.TreeMap.distinct_keys.imp fun h hsame => h (Group.compare_eq_iff.2 hsame)
  size := Std.TreeMap.length_keys.symm

theorem Lists.congr (h : s.Lists groups) (heq : s'.groups = s.groups) : s'.Lists groups where
  found := heq ▸ h.found
  apart := h.apart
  size := heq ▸ h.size

theorem Lists.insert (h : s.Lists groups) (hnew : ¬ s.groups.contains group = true)
    {ids : List CursorId} (heq : s'.groups = s.groups.insert group ids) :
    s'.Lists (group :: groups) where
  found g := by
    rw [heq, Std.TreeMap.contains_insert, Bool.or_eq_true, beq_iff_eq, Group.compare_eq_iff,
      h.found, List.exists_mem_cons_iff]
    exact or_congr_left ⟨Group.Same.symm, Group.Same.symm⟩
  apart := by
    refine List.pairwise_cons.2 ⟨fun g hg hsame => ?_, h.apart⟩
    exact hnew ((h.found group).2 ⟨g, hg, hsame⟩)
  size := by
    rw [heq, Std.TreeMap.size_insert, if_neg hnew, h.size, List.length_cons]

/-- The groups that are left when those equal to one are gone. -/
def without (group : Group) (groups : List Group) : List Group :=
  groups.filter fun g => ¬ group.Same g

theorem mem_without {g : Group} : g ∈ without group groups ↔ g ∈ groups ∧ ¬ group.Same g := by
  rw [without, List.mem_filter, decide_eq_true_eq]

theorem without_eq_self (hnone : ∀ g ∈ groups, ¬ group.Same g) : without group groups = groups :=
  List.filter_eq_self.2 fun g hg => decide_eq_true (hnone g hg)

theorem length_without (hapart : groups.Pairwise fun g g' => ¬ g.Same g') :
    (without group groups).length =
      if ∃ g ∈ groups, group.Same g then groups.length - 1 else groups.length := by
  induction groups with
  | nil => simp [without]
  | cons a rest ih =>
    obtain ⟨ha, hrest⟩ := List.pairwise_cons.1 hapart
    by_cases hsame : group.Same a
    · -- No other group is equal to this one, so nothing else goes.
      have hnone : ∀ g ∈ rest, ¬ group.Same g := fun g hg hg' => ha g hg (hsame.symm.trans hg')
      have hgone : without group (a :: rest) = without group rest :=
        List.filter_cons_of_neg (by simpa using hsame)
      rw [hgone, without_eq_self hnone, if_pos ⟨a, List.mem_cons_self, hsame⟩, List.length_cons,
        Nat.add_sub_cancel]
    · have hkept : without group (a :: rest) = a :: without group rest :=
        List.filter_cons_of_pos (by simpa using hsame)
      have hany : (∃ g ∈ a :: rest, group.Same g) ↔ ∃ g ∈ rest, group.Same g := by
        rw [List.exists_mem_cons_iff, or_iff_right hsame]
      rw [hkept, List.length_cons, ih hrest]
      simp only [hany]
      split
      next h =>
        obtain ⟨g, hg, -⟩ := h
        have hpos := List.length_pos_of_mem hg
        rw [List.length_cons]
        omega
      next => rw [List.length_cons]

theorem Lists.erase (h : s.Lists groups) (heq : s'.groups = s.groups.erase group) :
    s'.Lists (without group groups) where
  found g := by
    rw [heq, Std.TreeMap.contains_erase, Bool.and_eq_true, bne_iff_ne, ne_eq,
      Group.compare_eq_iff, h.found]
    constructor
    · rintro ⟨hne, g', hg', hsame⟩
      exact ⟨g', mem_without.2 ⟨hg', fun hgone => hne (hgone.trans hsame.symm)⟩, hsame⟩
    · rintro ⟨g', hg', hsame⟩
      obtain ⟨hg', hkept⟩ := mem_without.1 hg'
      exact ⟨fun hgone => hkept (hgone.trans hsame), g', hg', hsame⟩
  apart := h.apart.filter _
  size := by
    rw [heq, Std.TreeMap.size_erase, length_without h.apart, h.size]
    simp only [h.found]

theorem Lists.without_eq (h : s.Lists groups) (hnone : ¬ s.groups.contains group = true) :
    without group groups = groups :=
  without_eq_self fun g hg hsame => hnone ((h.found group).2 ⟨g, hg, hsame⟩)

variable {e : Engine} {id : SessionId}

theorem Lists.update (h : (e.session id).Lists groups) (change : Session → Session)
    (hgroups : ∀ s, (change s).groups = s.groups) :
    ((e.updateSession id change).session id).Lists groups := by
  apply h.congr
  rw [Loan.session_updateSession]
  split
  · exact hgroups _
  · rfl

theorem lists_plan (h : (e.session id).Lists groups) (connective : Connective) (group : Group) :
    Ensures (Session.plan id connective group) e fun
      | .ok _, e' => (e'.session id).Lists (group :: groups)
      | .error _, e' => (e'.session id).Lists groups := by
  refine Loan.ensures_plan_of (fun _ => h) (fun _ => h) (fun _ _ => h) ?_
  intro cands hrunning hnew _
  refine ((Session.framed_openAll cands).frame e).mono ?_
  intro r e' hframe
  have hsame : e'.session id = e.session id := Loan.session_congr hframe.sessions
  cases r with
  | error f => exact h.congr (congrArg Session.groups hsame)
  | ok ids =>
    apply h.insert hnew
    have hlt : id < e'.sessions.size := by
      rw [hframe.sessions]
      exact Loan.lt_size_of_running hrunning
    rw [Loan.session_updateSession, if_pos ⟨rfl, hlt⟩, hsame]

theorem lists_release (h : (e.session id).Lists groups) (group : Group) :
    Ensures (Session.release id group) e fun r e' => r = .ok () ∧
      (e'.session id).Lists (without group groups) := by
  cases hgroup : (e.session id).groups.get? group with
  | none =>
    rw [Loan.ensures_release_none hgroup, h.without_eq (Loan.get?_eq_none_iff.1 hgroup)]
    exact ⟨rfl, h⟩
  | some cursors =>
    have hlt : id < e.sessions.size := by
      by_contra hge
      rw [Engine.session, Array.getD_eq_getD_getElem?, Array.getElem?_eq_none (Nat.not_lt.1 hge)]
        at hgroup
      cases hgroup
    rw [Session.release, Loan.ensures_sessionState_bind, hgroup, Session.update,
      ensures_modify_bind]
    refine (Catalog.ensures_reclaim _).bind_ok ?_
    rintro e₁ ⟨hreclaimed, -⟩
    refine Ensures.and (R := fun r _ => r = .ok ()) (Act.allQuietly_fst _ _ _) ?_
    refine ((Cursor.framed_closeQuietly cursors).frame e₁).mono ?_
    intro _ e' hframe
    apply h.erase
    rw [Loan.session_congr (hframe.sessions.trans hreclaimed.sessions), Loan.session_updateSession,
      if_pos ⟨rfl, hlt⟩]

theorem lists_releaseAll (h : (e.session id).Lists groups) (gs : List Group) :
    Ensures (Session.releaseAll id gs) e fun r e' => r = .ok () ∧
      (e'.session id).Lists (gs.foldl (fun groups g => without g groups) groups) := by
  induction gs generalizing e groups with
  | nil => exact ⟨rfl, h⟩
  | cons g rest ih =>
    rw [Session.releaseAll]
    refine (lists_release h g).bind_ok ?_
    intro e' h'
    exact ih h'

theorem mem_foldl_without {gs : List Group} {g : Group} :
    g ∈ gs.foldl (fun groups g => without g groups) groups ↔
      g ∈ groups ∧ ∀ k ∈ gs, ¬ k.Same g := by
  induction gs generalizing groups with
  | nil => simp
  | cons k rest ih => rw [List.foldl_cons, ih, mem_without, List.forall_mem_cons, and_assoc]

/-- Finishing releases every group that is listed, and then nothing is open. -/
theorem lists_finish (h : (e.session id).Lists groups) : Ensures (Session.finish id) e fun _ e' =>
    (e'.session id).Lists (if (e.session id).finished then groups else []) := by
  by_cases hfinished : (e.session id).finished = true
  · rw [ensures_finish_again hfinished, if_pos hfinished]
    exact h
  rw [Session.finish, Loan.ensures_sessionState_bind]
  simp only [if_neg hfinished, Session.update, ensures_modify_bind]
  have hnone : (e.session id).groups.keys.foldl (fun groups g => without g groups) groups = [] := by
    refine List.eq_nil_iff_forall_not_mem.2 fun g hg => ?_
    obtain ⟨hg, hkeys⟩ := mem_foldl_without.1 hg
    have hcontains := (h.found g).2 ⟨g, hg, Group.same_self g⟩
    obtain ⟨k, hk, hsame⟩ := ((lists_keys _).found g).1 hcontains
    exact hkeys k hk hsame.symm
  have hmarked := h.update (fun s => { s with finished := true }) fun _ => rfl
  refine (lists_releaseAll hmarked (e.session id).groups.keys).bind_ok ?_
  intro e₁ h₁
  rw [hnone] at h₁
  refine ((DataFile.framed_releaseAll (e.session id).scope).frame e₁).bind ?_ ?_
  · intro _ e₂ hframe
    have h₂ := h₁.congr (congrArg Session.groups (Loan.session_congr hframe.sessions))
    rw [ensures_modify]
    exact h₂.update (fun s => { s with scope := [] }) fun _ => rfl
  · intro _ e₂ hframe
    exact h₁.congr (congrArg Session.groups (Loan.session_congr hframe.sessions))

/-- The groups that are open after a call, if these were open before: a plan that succeeds opens its
group, a release closes what is equal to its own, and the first finish closes all. -/
def Call.opens (id : SessionId) (e : Engine) (groups : List Group) : Call → List Group
  | plan connective group =>
    match (Session.plan id connective group e).1 with
    | .ok _ => group :: groups
    | .error _ => groups
  | release group => without group groups
  | finish => if (e.session id).finished then groups else []

/-- The groups that are open after several calls, one after the other. -/
def Call.opened (id : SessionId) : List Call → Engine → List Group → List Group
  | [], _, groups => groups
  | call :: rest, e, groups => opened id rest (call.effect id e) (call.opens id e groups)

theorem Lists.call (h : (e.session id).Lists groups) (call : Call) :
    ((call.effect id e).session id).Lists (call.opens id e groups) := by
  cases call with
  | plan connective group =>
    have hplan := lists_plan h connective group
    rw [Ensures] at hplan
    rw [Call.opens, Call.effect]
    cases hresult : (Session.plan id connective group e).1 with
    | ok m =>
      rw [hresult] at hplan
      exact hplan
    | error f =>
      rw [hresult] at hplan
      exact hplan
  | release group => exact (lists_release h group).2
  | finish => exact lists_finish h

theorem Lists.calls (h : (e.session id).Lists groups) (calls : List Call) :
    ((Call.effects id calls e).session id).Lists (Call.opened id calls e groups) := by
  induction calls generalizing e groups with
  | nil => exact h
  | cons call rest ih => exact ih (h.call call)

/-- Conditions and groups are sound as keys: the comparisons that look them up are strict orders
that leave just equal values undecided. So whatever plans, releases and finishes are called, in any
state of the engine, a session finds a group just if an equal one is open, and lists each group
once. -/
theorem keys_sound (id : SessionId) (calls : List Call) (e : Engine) :
    Sorts Condition.compare Condition.Before (fun a b => a.same b = true) ∧
    Sorts Group.compare Group.Before Group.Same ∧
    ((Call.effects id calls e).session id).Lists
      (Call.opened id calls e (e.session id).groups.keys) :=
  ⟨Condition.sorts, Group.sorts, (lists_keys _).calls calls⟩

end Session
end SecondaryIndex
