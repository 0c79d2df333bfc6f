import SecondaryIndex.Proofs.Building
import SecondaryIndex.Proofs.Operation

namespace SecondaryIndex

open Act

/-- Engines that differ in their sessions only, where a session has yet to open `gs` in the one and
`gs'` in the other. -/
structure Twins (id : SessionId) (gs gs' : List Group) (e e' : Engine) : Prop where
  beside : ∃ sessions, e' = { e with sessions }
  scope : (e'.session id).scope = (e.session id).scope
  ready : e.Ready id gs
  ready' : e'.Ready id gs'

theorem Twins.step {id : SessionId} {gs gs' rest rest' : List Group} {e e' s s' : Engine}
    (h : Twins id (gs ++ rest) (gs' ++ rest') e e') (ho : Opening id gs e s)
    (ho' : Opening id gs' e' s') (hs : ∃ sessions, s' = { s with sessions }) :
    Twins id rest rest' s s' where
  beside := hs
  scope := by rw [ho.scope, ho'.scope, h.scope]
  ready := h.ready.after ho
  ready' := h.ready'.after ho'

/-- Acts that do the same to such engines, the one opening `gs` and the other `gs'`, whatever groups
are still to come. -/
def InStep {α : Type} (id : SessionId) (gs gs' : List Group) (act act' : Act α) : Prop :=
  ∀ rest rest' e e', Twins id (gs ++ rest) (gs' ++ rest') e e' →
    (act' e').1 = (act e).1 ∧ Twins id rest rest' (act e).2 (act' e').2

namespace InStep

variable {α β : Type} {id : SessionId} {gs gs' hs hs' : List Group} {act act' : Act α}
  {next next' : α → Act β}

theorem of_opensOnly (ho : OpensOnly id gs act) (ho' : OpensOnly id gs' act')
    (h : ∀ e sessions, ({ e with sessions }.session id).scope = (e.session id).scope →
      e.Ready id gs → { e with sessions }.Ready id gs' →
        Ensures act e fun r s => Ensures act' { e with sessions } fun r' s' =>
          r' = r ∧ ∃ sessions', s' = { s with sessions := sessions' }) :
    InStep id gs gs' act act' := by
  intro rest rest' e e' htwins
  obtain ⟨sessions, rfl⟩ := htwins.beside
  have hsame := h e sessions htwins.scope htwins.ready.left htwins.ready'.left
  exact ⟨hsame.1, htwins.step (ho e) (ho' _) hsame.2⟩

theorem of_framed (h : Framed act) : InStep id gs gs' act act := by
  apply of_opensOnly (.of_framed h) (.of_framed h)
  intro e sessions _ _ _
  obtain ⟨hresult, hstate⟩ := Prod.ext_iff.1 (h.blind e sessions)
  exact ⟨hresult, sessions, hstate⟩

theorem bind (h : InStep id gs gs' act act') (hnext : ∀ a, InStep id hs hs' (next a) (next' a)) :
    InStep id (gs ++ hs) (gs' ++ hs') (act >>= next) (act' >>= next') := by
  intro rest rest' e e' htwins
  rw [List.append_assoc, List.append_assoc] at htwins
  obtain ⟨hresult, hstates⟩ := h _ _ e e' htwins
  rw [bind_apply, bind_apply]
  generalize act e = first at hresult hstates ⊢
  generalize act' e' = first' at hresult hstates ⊢
  obtain ⟨r, s⟩ := first
  obtain ⟨r', s'⟩ := first'
  obtain rfl : r' = r := hresult
  cases r' with
  | error f =>
    -- After a fault the groups of the second act are not opened any more.
    exact ⟨rfl, hstates.step (.of_eq rfl) (.of_eq rfl) hstates.beside⟩
  | ok a => exact hnext a rest rest' s s' hstates

theorem bind_framed {next : α → Act β} (h : InStep id gs gs' act act')
    (hnext : ∀ a, Framed (next a)) : InStep id gs gs' (act >>= next) (act' >>= next) := by
  rw [← List.append_nil gs, ← List.append_nil gs']
  exact h.bind fun a => of_framed (hnext a)

end InStep

namespace Session

theorem inStep_plan {id : SessionId} (k : Connective) {group group' : Group}
    (h : group'.filter Condition.eligible = group.filter Condition.eligible) :
    InStep id [group] [group'] (plan id k group) (plan id k group') := by
  apply InStep.of_opensOnly (opensOnly_plan id k group) (opensOnly_plan id k group')
  intro e sessions hscope hready hready'
  have hnew := hready.new group (List.mem_singleton_self _)
  have hnew' := hready'.new group' (List.mem_singleton_self _)
  have hcands : Candidate.ofGroup { e with sessions } ({ e with sessions }.session id).scope k
      group' = Candidate.ofGroup e (e.session id).scope k group := by
    rw [hscope]
    apply Candidate.ofGroup_congr _ h
    rfl
  simp only [Loan.ensures_plan hready.running hnew, Loan.ensures_plan hready'.running hnew', hcands]
  cases Candidate.ofGroup e (e.session id).scope k group with
  | error f => exact ⟨rfl, sessions, rfl⟩
  | ok cands =>
    have hblind := (framed_openAll cands).blind e sessions
    simp only [Ensures, hblind]
    rcases openAll cands e with ⟨f | ids, s⟩
    · exact ⟨rfl, sessions, rfl⟩
    · exact ⟨rfl, _, rfl⟩

end Session

namespace Query

/-- The same tree over groups with the same conditions for the indexes. What is left to the row
filter may differ, as long as groups that are empty stay so. -/
inductive Refiltered : Query → Query → Prop
  | absent : Refiltered absent absent
  | node {k : Connective} {group group' : Group} {left left' right right' : Query}
      (isEmpty_eq : group'.isEmpty = group.isEmpty)
      (filter_eq : group'.filter Condition.eligible = group.filter Condition.eligible)
      (ofLeft : Refiltered left left') (ofRight : Refiltered right right') :
      Refiltered (node k group left right) (node k group' left' right')

namespace Refiltered

variable {q q' : Query}

theorem refl (q : Query) : Refiltered q q := by
  induction q with
  | absent => exact absent
  | node k group left right ihl ihr => exact node rfl rfl ihl ihr

theorem append {group more : Group} (hne : group ≠ []) (hmore : ∀ c ∈ more, ¬ c.eligible)
    (k : Connective) (left right : Query) :
    Refiltered (.node k group left right) (.node k (group ++ more) left right) := by
  have hnone : more.filter Condition.eligible = [] := List.filter_eq_nil_iff.2 hmore
  apply node _ _ (refl left) (refl right)
  · rw [List.isEmpty_eq_false_iff.2 hne, List.isEmpty_eq_false_iff]
    exact List.append_ne_nil_of_left_ne_nil hne more
  · rw [List.filter_append, hnone, List.append_nil]

theorem isAbsent_eq (h : Refiltered q q') : q'.isAbsent = q.isAbsent := by
  cases h <;> rfl

end Refiltered

variable {id : SessionId}

theorem inStep_start (k : Connective) {group group' : Group}
    (hempty : group'.isEmpty = group.isEmpty)
    (h : group'.filter Condition.eligible = group.filter Condition.eligible) :
    InStep id (if group.isEmpty then [] else [group]) (if group'.isEmpty then [] else [group'])
      (start id k group) (start id k group') := by
  have hcount : group'.eligible = group.eligible := by
    rw [Group.eligible_eq, h, Group.eligible_eq]
  rw [start, start, hempty, hcount]
  split
  · exact .of_framed (.pure _)
  · exact (Session.inStep_plan k h).bind_framed fun m => .pure _

theorem inStep_join (m : Merge) {part part' : Query} (h : part'.isAbsent = part.isAbsent)
    {gs gs' : List Group} {build build' : Act (Option CursorId)}
    (hbuild : InStep id gs gs' build build') :
    InStep id gs gs' (join m part build) (join m part' build') := by
  rw [join, join, h]
  split
  · exact .of_framed (.pure _)
  · apply hbuild.bind_framed
    intro found
    cases found with
    | none => exact .pure _
    | some x => exact (Merge.framed_add m _).map

theorem inStep_build {q q' : Query} (h : Refiltered q q') :
    InStep id q.groups q'.groups (q.build id) (q'.build id) := by
  induction h with
  | absent => exact .of_framed (.pure _)
  | @node k group group' left left' right right' hempty hfilter hleft hright ihl ihr =>
    rw [build, build]
    apply (inStep_start k hempty hfilter).bind
    intro started
    cases started with
    | none => exact .of_framed (.pure _)
    | some m =>
      apply (inStep_join m hleft.isAbsent_eq ihl).bind
      intro joined
      cases joined with
      | none => exact .of_framed (.pure _)
      | some m =>
        apply (inStep_join m hright.isAbsent_eq ihr).bind_framed
        intro joined
        cases joined with
        | none => exact .pure _
        | some m => exact Merge.framed_build m

/-- Conditions that are left to the row filter make no difference to what is built for a query, as
long as the session has none of the groups open. -/
theorem build_refiltered {e : Engine} {q q' : Query} (h : Refiltered q q')
    (hready : e.Ready id q.groups) (hready' : e.Ready id q'.groups) :
    ∃ sessions, q'.build id e = ((q.build id e).1, { (q.build id e).2 with sessions }) := by
  have htwins : Twins id (q.groups ++ []) (q'.groups ++ []) e e := by
    rw [List.append_nil, List.append_nil]
    exact ⟨⟨e.sessions, rfl⟩, rfl, hready, hready'⟩
  obtain ⟨hresult, hstates⟩ := inStep_build h [] [] e e htwins
  obtain ⟨sessions, hstate⟩ := hstates.beside
  exact ⟨sessions, Prod.ext hresult hstate⟩

end Query

/-- Whatever an act brings, if it brings anything, has a property. -/
def Brings {α : Type} (P : α → Prop) (act : Act (Option α)) : Prop :=
  ∀ e, Ensures act e fun r _ => ∀ a, r = .ok (some a) → P a

/-- An act that fails or has no cursor to show. -/
abbrev Barren (act : Act (Option CursorId)) : Prop := Brings (fun _ => False) act

namespace Brings

variable {α β : Type} {P : α → Prop} {Q : β → Prop}

theorem none : Brings P (pure none) := fun _ => nofun

theorem some {a : α} (h : P a) : Brings P (pure (some a)) := by
  intro e a' heq
  cases heq
  exact h

theorem bind {act : Act (Option α)} {next : Option α → Act (Option β)} (h : Brings P act)
    (hnone : Brings Q (next .none)) (hsome : ∀ a, P a → Brings Q (next (.some a))) :
    Brings Q (act >>= next) := by
  intro e
  apply (h e).bind
  · intro found e' hfound
    cases found with
    | none => exact hnone e'
    | some a => exact hsome a (hfound a rfl) e'
  · exact fun f e' _ => nofun

end Brings

theorem Merge.barren_build {m : Merge} (h : m.inputs = []) : Barren m.build := by
  unfold build
  rw [h]
  exact .none

theorem Candidate.ofGroup_deferred (e : Engine) (scope : List DataFile) (k : Connective)
    {group : Group} (h : ∀ c ∈ group, ¬ c.eligible) : ofGroup e scope k group = .ok [] := by
  have hfilter : group.filter Condition.eligible = [] := List.filter_eq_nil_iff.2 h
  have hdistinct : group.eligible = [] := by
    rw [Group.eligible_eq, hfilter]
    rfl
  rw [ofGroup.eq_def, hdistinct]
  cases k with
  | or => rfl
  | and =>
    rw [primary, hfilter]
    rfl

theorem Session.ensures_plan_ok (id : SessionId) (k : Connective) (group : Group) (e : Engine) :
    Ensures (plan id k group) e fun r _ => ∀ m, r = .ok m → ∃ cands ids e',
      Candidate.ofGroup e (e.session id).scope k group = .ok cands ∧
        openAll cands e = (.ok ids, e') ∧
          m = ids.foldl (Merge.takeIn e'.cursors) { connective := k } := by
  refine Loan.ensures_plan_of (fun _ => nofun) (fun _ => nofun) (fun _ _ => nofun) ?_
  intro cands _ _ hcands
  dsimp only [Ensures]
  rcases hids : openAll cands e with ⟨f | ids, e'⟩
  · exact nofun
  · rintro m ⟨⟩
    exact ⟨cands, ids, e', hcands, hids, rfl⟩

namespace Query

variable {id : SessionId}

def Deferred : Query → Prop := Every fun _ group _ _ => ∀ c ∈ group, ¬ c.eligible

instance (q : Query) : Decidable q.Deferred := decidableEvery q

theorem brings_start (k : Connective) (group : Group) :
    Brings (fun m => m.connective = k ∧ ((∀ c ∈ group, ¬ c.eligible) → m.inputs = []))
      (start id k group) := by
  rw [start]
  split
  · exact .some ⟨rfl, fun _ => rfl⟩
  intro e
  apply (Session.ensures_plan_ok id k group e).bind
  · intro m e' hm
    obtain ⟨cands, ids, e₁, hcands, hids, rfl⟩ := hm m rfl
    split
    · intro _ hsome
      cases hsome
    rintro _ ⟨⟩
    refine ⟨Merge.foldl_takeIn_connective _ _ _, fun hdeferred => ?_⟩
    rw [Candidate.ofGroup_deferred _ _ _ hdeferred] at hcands
    cases hcands
    cases hids
    rfl
  · intro f e' _ m hok
    cases hok

theorem brings_join (m : Merge) (part : Query) (build : Act (Option CursorId)) :
    Brings (·.connective = m.connective) (join m part build) := by
  rw [join]
  split
  · exact .some rfl
  have hany : Brings (fun _ => True) build := fun e => (fun _ _ => trivial)
  refine hany.bind ?_ ?_
  · cases hk : m.connective with
    | and => exact .none
    | or => exact .some hk
  · intro x _ e
    rw [ensures_map, Merge.ensures_add]
    rintro _ ⟨⟩
    exact Merge.takeIn_connective _ _ _

theorem brings_join_barren (m : Merge) (part : Query) {build : Act (Option CursorId)}
    (h : Barren build) :
    Brings (fun m' => m' = m ∧ (part.isAbsent ∨ m.connective = .or)) (join m part build) := by
  rw [join]
  split
  next habsent => exact .some ⟨rfl, .inl habsent⟩
  next =>
    refine h.bind ?_ ?_
    · cases hk : m.connective with
      | and => exact .none
      | or => exact .some ⟨rfl, .inr rfl⟩
    · exact fun x hx => hx.elim

/-- Nothing comes of a query that is all left to the row filter. -/
theorem barren_build_deferred {q : Query} (h : q.Deferred) : Barren (q.build id) := by
  induction q with
  | absent => exact .none
  | node k group left right ihl ihr =>
    obtain ⟨hgroup, hleft, hright⟩ := h
    rw [build]
    refine (brings_start k group).bind .none ?_
    rintro m ⟨-, hinputs⟩
    refine (brings_join_barren m left (ihl hleft)).bind .none ?_
    rintro _ ⟨rfl, -⟩
    refine (brings_join_barren _ right (ihr hright)).bind .none ?_
    rintro m ⟨rfl, -⟩
    exact Merge.barren_build (hinputs hgroup)

theorem barren_conjunction {group : Group} {left right : Query}
    (h : (¬ left.isAbsent ∧ Barren (left.build id)) ∨
      (¬ right.isAbsent ∧ Barren (right.build id))) :
    Barren ((node .and group left right).build id) := by
  rw [build]
  refine (brings_start .and group).bind .none ?_
  rintro m ⟨hand, -⟩
  rcases h with ⟨hpresent, hleft⟩ | ⟨hpresent, hright⟩
  · refine (brings_join_barren m left hleft).bind .none ?_
    rintro _ ⟨-, habsent | hor⟩
    · exact absurd habsent hpresent
    · rw [hand] at hor
      cases hor
  · refine (brings_join m left _).bind .none ?_
    intro m₁ hm₁
    refine (brings_join_barren m₁ right hright).bind .none ?_
    rintro _ ⟨-, habsent | hor⟩
    · exact absurd habsent hpresent
    · rw [hm₁, hand] at hor
      cases hor

/-- A conjunction with a part that is all left to the row filter loses all its rows. -/
theorem barren_deferred_part {group : Group} {left right : Query}
    (h : (¬ left.isAbsent ∧ left.Deferred) ∨ (¬ right.isAbsent ∧ right.Deferred)) :
    Barren ((node .and group left right).build id) := by
  apply barren_conjunction
  apply h.imp
  · exact fun hleft => ⟨hleft.1, barren_build_deferred hleft.2⟩
  · exact fun hright => ⟨hright.1, barren_build_deferred hright.2⟩

-- A row of the memtable, and one condition for the row filter: in the group, or in its own part.
example :
    let e : Engine := Operation.effects [.register "a" (some .text), .createIndex "a",
      .enter 5 "a" [120], .openSession 0 (some .full) 1000] {}
    let isX : Condition := ⟨"a", .text, some 0, .eq [120]⟩
    let isNotY : Condition := ⟨"a", .text, some 0, .notEq [121]⟩
    let deferred : Query := .node .and [isNotY] .absent .absent
    deferred.Deferred ∧ ((node .and [isX] absent absent).build 0 e).1 = .ok (some 1) ∧
      ((node .and [isX, isNotY] absent absent).build 0 e).1 = .ok (some 1) ∧
        ((node .and [isX] deferred absent).build 0 e).1 = .ok none := by
  decide +kernel

end Query
end SecondaryIndex
