import Mathlib.Data.List.ReduceOption
import SecondaryIndex.Proofs.Meaning
import SecondaryIndex.Proofs.Opening

namespace SecondaryIndex

open Act Cursor

def Outcome (e₀ : Engine) (d : Candidate) (o : Option Part) : Prop :=
  (∀ p ∈ o, ∀ t ∈ p.tokens, d.Holds e₀ t) ∧
    (d.Answers e₀ → ∀ t, d.Holds e₀ t → ∃ p ∈ o, t ∈ p.tokens)

/-- What the opened matches of several candidates give. -/
structure Surveyed (n : Nat) (e₀ e : Engine) (cands : List Candidate) (ids : List Nat)
    (outs : List (Option Part)) : Prop where
  each : List.Forall₂ (Outcome e₀) cands outs
  inputs : Inputs n e.cursors ids outs.reduceOption
  full : (∀ d ∈ cands, d.Answers e₀) → Quiet e.cursors (Part.allReads outs.reduceOption) ∧
    Counts e.cursors ids outs.reduceOption ∧
      tally e.cursors ids ≤ (cands.map fun d => d.volume e₀).sum

namespace Surveyed

variable {n n' x : Nat} {e₀ e : Engine} {d : Candidate} {rest : List Candidate} {ids : List Nat}
  {outs : List (Option Part)} {p : Part}

theorem skip (h : Surveyed n' e₀ e rest ids outs) (hle : n ≤ n')
    (hnone : d.Answers e₀ → ∀ t, ¬ d.Holds e₀ t) :
    Surveyed n e₀ e (d :: rest) ids (none :: outs) where
  each := .cons ⟨nofun, fun hans t ht => absurd ht (hnone hans t)⟩ h.each
  inputs := by
    rw [List.reduceOption_cons_of_none]
    exact h.inputs.mono hle
  full hall := by
    obtain ⟨hquiet, hcounts, htally⟩ := h.full (List.forall_mem_cons.1 hall).2
    rw [List.reduceOption_cons_of_none, List.map_cons, List.sum_cons]
    exact ⟨hquiet, hcounts, Nat.le_trans htally (Nat.le_add_left _ _)⟩

theorem cons (h : Surveyed n' e₀ e rest ids outs) (hle : n ≤ n') (hopened : Opened n e.cursors x p)
    (hlt : ∀ i ∈ p.reads, i < n') (hsound : ∀ t ∈ p.tokens, d.Holds e₀ t)
    (hfull : d.Answers e₀ → (∀ t, d.Holds e₀ t → t ∈ p.tokens) ∧ Quiet e.cursors p.reads ∧
      Counted (d.volume e₀) e.cursors x p) :
    Surveyed n e₀ e (d :: rest) (x :: ids) (some p :: outs) where
  each := by
    refine .cons ⟨?_, fun hans t ht => ⟨p, rfl, (hfull hans).1 t ht⟩⟩ h.each
    rintro _ ⟨⟩
    exact hsound
  inputs := by
    rw [List.reduceOption_cons_of_some]
    exact .cons hopened (h.inputs.mono hle) fun i hi hi' =>
      Nat.not_lt.2 (h.inputs.mem_reads i hi').1 (hlt i hi)
  full hall := by
    rw [List.forall_mem_cons] at hall
    obtain ⟨-, hquiet₁, hcounted⟩ := hfull hall.1
    obtain ⟨hquiet, hcounts, htally⟩ := h.full hall.2
    rw [List.reduceOption_cons_of_some, List.map_cons, List.sum_cons, tally_cons]
    exact ⟨hquiet₁.append hquiet, .cons hcounted.ne hcounts, Nat.add_le_add hcounted.le htally⟩

end Surveyed

theorem Counted.congr {V x : Nat} {cs cs' : Array Cursor} {p : Part} (h : Counted V cs x p)
    (hx : cs'[x]? = cs[x]?) : Counted V cs' x p :=
  ⟨Merge.extentOf_congr hx ▸ h.le, fun hne => by rw [Merge.admits_congr hx]; exact h.ne hne⟩

theorem Loan.Borrowed.surveyed_openAll {P : List Segment → Prop} {e₀ e : Engine} {S H : List Nat}
    (cands : List Candidate) (h : Borrowed P e₀ e S H) (ho : e₀.Ordered)
    (hP : ∀ d ∈ cands, ∀ found, found.Sublist d.segments → P found) :
    Ensures (Session.openAll cands) e fun
      | .error _, _ => ¬ ∀ d ∈ cands, d.Answers e₀
      | .ok ids, e' => Beyond e.cursors.size e.cursors e'.cursors ∧
          ∃ outs, Surveyed e.cursors.size e₀ e' cands ids outs := by
  induction cands generalizing e with
  | nil => exact ⟨.refl _ _, [], .nil, .nil _ _, fun _ => ⟨nofun, .nil, Nat.le_refl 0⟩⟩
  | cons d rest ih =>
    rw [List.forall_mem_cons] at hP
    rw [Session.openAll]
    refine ((h.yields_openMatches d ho).and (h.openMatches d hP.1)).bind ?_ ?_
    swap
    · exact fun f e₁ h₁ hall => h₁.1 (hall d (by simp))
    rintro (_ | x) e₁ ⟨h₁, h₁'⟩
    · obtain ⟨hb₁, hnone⟩ := h₁
      have hle := hb₁.le_size (Nat.le_refl _)
      refine (ih h₁'.held hP.2).mono ?_
      rintro (f | ids) e₂ h₂
      · exact fun hall => h₂ (List.forall_mem_cons.1 hall).2
      obtain ⟨hb₂, outs, hsurveyed⟩ := h₂
      exact ⟨hb₁.trans (hb₂.mono hle), _, hsurveyed.skip hle hnone⟩
    obtain ⟨hb₁, p, hopened, hsound, hfull⟩ := h₁
    have hle := hb₁.le_size (Nat.le_refl _)
    refine ((ih h₁'.1.held hP.2).orUndo_of fun _ _ _ h => h).bind ?_ ?_
    swap
    · exact fun f e₂ h₂ hall => h₂ (List.forall_mem_cons.1 hall).2
    rintro ids e₂ ⟨hb₂, outs, hsurveyed⟩
    rw [ensures_pure]
    refine ⟨hb₁.trans (hb₂.mono hle), _, hsurveyed.cons hle (hopened.beyond hb₂)
      hopened.streams.lt_size (hsound trivial) fun hans => ?_⟩
    -- What was opened first has not changed since.
    obtain ⟨hmem, hquiet, hcounted⟩ := hfull hans
    refine ⟨hmem, hquiet.frame fun i hi => ?_, hcounted.congr (hb₂ x hopened.lt_size)⟩
    exact hb₂ i (hopened.streams.lt_size i hi)

theorem Candidate.answers_sessions {e : Engine} {sessions : Array Session} {d : Candidate} :
    d.Answers { e with sessions } ↔ d.Answers e :=
  ⟨fun h => ⟨h.memtable, fun s hs => ⟨(h.segments s hs).1, (h.segments s hs).2⟩, h.small⟩,
    fun h => ⟨h.memtable, fun s hs => ⟨(h.segments s hs).1, (h.segments s hs).2⟩, h.small⟩⟩

theorem Surveyed.sessions {n : Nat} {e₀ e : Engine} {sessions : Array Session}
    {cands : List Candidate} {ids : List Nat} {outs : List (Option Part)}
    (h : Surveyed n { e₀ with sessions } e cands ids outs) : Surveyed n e₀ e cands ids outs where
  each := h.each.imp fun _ _ ho => ⟨ho.1, fun hans => ho.2 (Candidate.answers_sessions.2 hans)⟩
  inputs := h.inputs
  full hall := h.full fun d hd => Candidate.answers_sessions.2 (hall d hd)

/-- What the groups that a session has open are good for: the session goes on, and a new group is
none of them. -/
def Engine.Accepts (e : Engine) (id : SessionId) (group : Group) : Prop :=
  ¬ (e.session id).finished ∧ ¬ (e.session id).groups.contains group

/-- The searches for all candidates of a group succeed, and what they bring can be counted. -/
structure GroupAnswers (e : Engine) (scope : List DataFile) (k : Connective) (group : Group)
    (V : Nat) : Prop where
  answers : ∃ cands, Candidate.ofGroup e scope k group = .ok cands ∧
    (∀ d ∈ cands, d.Answers e) ∧ (cands.map fun d => d.volume e).sum = V
  small : V < 2 ^ 64

theorem GroupAnswers.of_ok {e : Engine} {scope : List DataFile} {k : Connective} {group : Group}
    {V : Nat} (h : GroupAnswers e scope k group V) {cands : List Candidate}
    (hcands : Candidate.ofGroup e scope k group = .ok cands) :
    (∀ d ∈ cands, d.Answers e) ∧ (cands.map fun d => d.volume e).sum = V := by
  obtain ⟨cands', hok, hall⟩ := h.answers
  rw [hcands] at hok
  cases hok
  exact hall

/-- A merge on its way: what it has taken in stands for `D`. -/
structure Collected (n : Nat) (e : Engine) (k : Connective) (sound full : Prop) (V : Nat)
    (D : Token → Prop) (asked : Prop) (m : Merge) (ps : List Part) : Prop where
  connective : m.connective = k
  fed : Fed n e.cursors m ps
  nothing_else : sound → ∀ t, k.Within ps t → D t
  all : full → ∀ t, D t → k.Within ps t ∧ (asked → ps ≠ [])
  quiet : full → Quiet e.cursors (Part.allReads ps)
  tallied : full → Tallied e.cursors m
  tally_le : full → tally e.cursors m.inputs ≤ V

section

variable {P : List Segment → Prop} {e₀ e : Engine} {S H : List Nat} {id : SessionId}
  {k : Connective} {group : Group}

open Loan

theorem surveyed_plan (h : Borrowed P { e₀ with sessions := e.sessions } e S H) (ho : e₀.Ordered)
    (hP : Loan.Allows P e₀) :
    Ensures (Session.plan id k group) e fun
      | .error _, _ => ¬ (e.Accepts id group ∧
          ∃ V, GroupAnswers e₀ (e.session id).scope k group V)
      | .ok m, e' => Beyond e.cursors.size e.cursors e'.cursors ∧ ∃ cands ids outs,
          Candidate.ofGroup e₀ (e.session id).scope k group = .ok cands ∧
            Surveyed e.cursors.size e₀ e' cands ids outs ∧
              m = ids.foldl (Merge.takeIn e'.cursors) { connective := k } := by
  have hindexes : e.indexes = e₀.indexes := h.untouched.indexes
  have hsame := Candidate.ofGroup_indexes hindexes (e.session id).scope k group
  refine ensures_plan_of (fun hfinished hall => hall.1.1 hfinished)
    (fun hcontains hall => hall.1.2 hcontains) ?_ ?_ <;> rw [hsame]
  · rintro f hf ⟨-, V, ⟨cands, hok, -⟩, -⟩
    rw [hf] at hok
    cases hok
  intro cands _ _ hcands
  refine (h.surveyed_openAll cands ho (hP e₀ rfl _ _ _ cands hcands)).mono ?_
  rintro (f | ids) e₁ h₁
  · rintro ⟨-, V, hanswers⟩
    exact h₁ fun d hd => Candidate.answers_sessions.2 ((hanswers.of_ok hcands).1 d hd)
  · obtain ⟨hb, outs, hsurvey⟩ := h₁
    exact ⟨hb, cands, ids, outs, hcands,
      ⟨hsurvey.sessions.each, hsurvey.inputs, hsurvey.sessions.full⟩, rfl⟩

section

variable {n : Nat} {cands : List Candidate} {ids : List Nat} {outs : List (Option Part)}

theorem Surveyed.holds (h : Surveyed n e₀ e cands ids outs) {p : Part} (hp : p ∈ outs.reduceOption)
    {t : Token} (ht : t ∈ p.tokens) : ∃ d ∈ cands, d.Holds e₀ t := by
  rw [List.reduceOption_mem_iff] at hp
  obtain ⟨d, hd, ho⟩ := exists_left h.each _ hp
  exact ⟨d, hd, ho.1 p rfl t ht⟩

theorem Surveyed.length_le (h : Surveyed n e₀ e cands ids outs) :
    outs.reduceOption.length ≤ cands.length := by
  rw [h.each.length_eq]
  exact List.reduceOption_length_le outs

theorem Surveyed.all_hold (h : Surveyed n e₀ e cands ids outs)
    (hlength : cands.length ≤ outs.reduceOption.length) {t : Token}
    (ht : ∀ p ∈ outs.reduceOption, t ∈ p.tokens) : ∀ d ∈ cands, d.Holds e₀ t := by
  have heach := h.each
  clear h
  induction heach with
  | nil => exact nofun
  | @cons d o cands outs ho hrest ih =>
    have hle := hrest.length_eq ▸ List.reduceOption_length_le outs
    cases o with
    | none =>
      rw [List.reduceOption_cons_of_none, List.length_cons] at hlength
      omega
    | some p =>
      rw [List.reduceOption_cons_of_some, List.length_cons, List.length_cons] at hlength
      rw [List.reduceOption_cons_of_some, List.forall_mem_cons] at ht
      exact List.forall_mem_cons.2 ⟨ho.1 p rfl t ht.1, ih (by omega) ht.2⟩

theorem Surveyed.mem_all (h : Surveyed n e₀ e cands ids outs) (hall : ∀ d ∈ cands, d.Answers e₀)
    {t : Token} (ht : ∀ d ∈ cands, d.Holds e₀ t) :
    outs.reduceOption.length = cands.length ∧ ∀ p ∈ outs.reduceOption, t ∈ p.tokens := by
  have heach := h.each
  clear h
  induction heach with
  | nil => exact ⟨rfl, nofun⟩
  | @cons d o cands outs ho hrest ih =>
    rw [List.forall_mem_cons] at hall ht
    obtain ⟨hlength, hmem⟩ := ih hall.2 ht.2
    obtain ⟨p, rfl, hp⟩ := ho.2 hall.1 t ht.1
    rw [List.reduceOption_cons_of_some, List.length_cons, List.length_cons, hlength]
    exact ⟨rfl, List.forall_mem_cons.2 ⟨hp, hmem⟩⟩

theorem Surveyed.mem_some (h : Surveyed n e₀ e cands ids outs) (hall : ∀ d ∈ cands, d.Answers e₀)
    {d : Candidate} (hd : d ∈ cands) {t : Token} (ht : d.Holds e₀ t) :
    ∃ p ∈ outs.reduceOption, t ∈ p.tokens := by
  have heach := h.each
  clear h
  induction heach with
  | nil => cases hd
  | @cons d' o cands outs ho hrest ih =>
    rw [List.forall_mem_cons] at hall
    rcases List.mem_cons.1 hd with rfl | hd
    · obtain ⟨p, rfl, hp⟩ := ho.2 hall.1 t ht
      exact ⟨p, by rw [List.reduceOption_cons_of_some]; exact List.mem_cons_self, hp⟩
    · obtain ⟨p, hp, ht⟩ := ih hall.2 hd
      refine ⟨p, ?_, ht⟩
      cases o with
      | none => rwa [List.reduceOption_cons_of_none]
      | some q =>
        rw [List.reduceOption_cons_of_some]
        exact List.mem_cons_of_mem q hp

section

variable {scope : List DataFile} {taken : List Part} {t : Token}
  (h : Surveyed n e₀ e cands ids outs) (heligible : ∀ c ∈ group, c.eligible)
  (hconditions : cands.map Candidate.condition = group.eligible)
  (hcands : Candidate.ofGroup e₀ scope k group = .ok cands) (hsub : taken.Sublist outs.reduceOption)
include h heligible hconditions hcands hsub

theorem Surveyed.finds_of_within (hwhole : k = .and → cands.length ≤ taken.length)
    (ht : k.Within taken t) : e₀.FindsGroup scope k group t := by
  cases k with
  | and =>
    have hle := hsub.length_le
    obtain rfl := hsub.eq_of_length_le (h.length_le.trans (hwhole rfl))
    rw [Engine.findsGroup_and heligible hconditions hcands]
    exact h.all_hold (hwhole rfl) ht
  | or =>
    rw [Engine.findsGroup_or hconditions hcands]
    obtain ⟨p, hp, htp⟩ := ht
    exact h.holds (hsub.subset hp) htp

theorem Surveyed.within_of_finds (hall : ∀ d ∈ cands, d.Answers e₀)
    (htaken : ∀ p ∈ outs.reduceOption, p.tokens ≠ [] → p ∈ taken)
    (ht : e₀.FindsGroup scope k group t) : k.Within taken t ∧ (group ≠ [] → taken ≠ []) := by
  cases k with
  | and =>
    rw [Engine.findsGroup_and heligible hconditions hcands] at ht
    obtain ⟨hlength, hmem⟩ := h.mem_all hall ht
    refine ⟨fun p hp => hmem p (hsub.subset hp), fun hne => ?_⟩
    obtain ⟨c, hc⟩ := List.exists_mem_of_ne_nil group hne
    obtain ⟨d, hd, -⟩ := (Group.stand_eligible group).stands c hc (heligible c hc)
    rw [← hconditions] at hd
    have hpos : 0 < outs.reduceOption.length := by
      rw [hlength, ← List.length_map]
      exact List.length_pos_of_mem hd
    obtain ⟨p, hp⟩ := List.exists_mem_of_length_pos hpos
    exact List.ne_nil_of_mem (htaken p hp (List.ne_nil_of_mem (hmem p hp)))
  | or =>
    rw [Engine.findsGroup_or hconditions hcands] at ht
    obtain ⟨d, hd, hholds⟩ := ht
    obtain ⟨p, hp, htp⟩ := h.mem_some hall hd hholds
    have hin := htaken p hp (List.ne_nil_of_mem htp)
    exact ⟨⟨p, hin, htp⟩, fun _ => List.ne_nil_of_mem hin⟩

end

end

theorem Surveyed.collected {n : Nat} {cands : List Candidate} {ids : List Nat}
    {outs : List (Option Part)} {scope : List DataFile} (h : Surveyed n e₀ e cands ids outs)
    (he : e₀.Indexed) (heligible : ∀ c ∈ group, c.eligible)
    (hcands : Candidate.ofGroup e₀ scope k group = .ok cands) {full : Prop} {V : Nat}
    (hfull : full → GroupAnswers e₀ scope k group V) {m : Merge}
    (hm : m = ids.foldl (Merge.takeIn e.cursors) { connective := k }) :
    if k = .and ∧ m.inputs.length < group.eligible.length then
      full → ∀ t, ¬ e₀.FindsGroup scope k group t
    else ∃ ps, Collected n e k True full V (e₀.FindsGroup scope k group) (group ≠ []) m ps := by
  have hconditions := (Candidate.drawn_ofGroup he hcands).1
  have hlength : group.eligible.length = cands.length := by
    rw [← hconditions, List.length_map]
  obtain ⟨taken, hsub, hfed, htaken⟩ := (Fed.start n e.cursors k).addAll h.inputs nofun
  rw [List.nil_append, ← hm] at hfed
  have hconnective : m.connective = k := by rw [hm, Merge.foldl_takeIn_connective]
  have hkept : m.inputs = ids.filter (Merge.admits e.cursors) := by
    rw [hm, Merge.foldl_takeIn_inputs, List.nil_append]
  have hinputs := hfed.inputs.each.length_eq
  have hanswers : full → (∀ d ∈ cands, d.Answers e₀) ∧ (cands.map fun d => d.volume e₀).sum = V :=
    fun hf => (hfull hf).of_ok hcands
  have hheld : full → ∀ t, e₀.FindsGroup scope k group t →
      k.Within taken t ∧ (group ≠ [] → taken ≠ []) := by
    intro hf t ht
    obtain ⟨hall, -⟩ := hanswers hf
    exact h.within_of_finds heligible hconditions hcands hsub hall (htaken.1 (h.full hall).2.1) ht
  split
  next hand =>
    obtain ⟨rfl, hlt⟩ := hand
    intro hf t ht
    rw [Engine.findsGroup_and heligible hconditions hcands] at ht
    -- If all candidates found the row, none would come without tokens and be left out.
    obtain ⟨hall, -⟩ := hanswers hf
    obtain ⟨hlen, hmem⟩ := h.mem_all hall ht
    have hne : ∀ p ∈ outs.reduceOption, p.tokens ≠ [] := fun p hp => List.ne_nil_of_mem (hmem p hp)
    have hwhole := htaken.2 ((h.full hall).2.1.admits hne)
    rw [← hwhole] at hlen
    omega
  next hand =>
    refine ⟨taken, hconnective, hfed, fun _ t ht => ?_, hheld, fun hf => ?_, fun hf => ?_,
      fun hf => ?_⟩
    · have hnot : k = .and → ¬ m.inputs.length < group.eligible.length :=
        fun hk hlt => hand ⟨hk, hlt⟩
      refine h.finds_of_within heligible hconditions hcands hsub (fun hk => ?_) ht
      have hle := hnot hk
      omega
    · exact (h.full (hanswers hf).1).1.of_subset hsub.subset
    · obtain ⟨hall, hV⟩ := hanswers hf
      have htally := (h.full hall).2.2
      have hsmall : tally e.cursors ids < 2 ^ 64 := (htally.trans hV.le).trans_lt (hfull hf).small
      rw [hm]
      exact (Tallied.start e.cursors k).addAll (by simpa using hsmall)
    · obtain ⟨hall, hV⟩ := hanswers hf
      rw [hkept, ← hV]
      exact (tally_filter_le _ _ _).trans (h.full hall).2.2

theorem Collected.of_nil (k : Connective) (scope : List DataFile) (V : Nat) {n : Nat}
    {full : Prop} : Collected n e k True full V (e₀.FindsGroup scope k []) (([] : Group) ≠ [])
      { connective := k } [] where
  connective := rfl
  fed := .start _ _ k
  nothing_else _ t ht := by
    cases k with
    | and => exact nofun
    | or =>
      obtain ⟨p, hp, -⟩ := ht
      cases hp
  all _ t ht := by
    refine ⟨?_, fun hne => absurd rfl hne⟩
    cases k with
    | and => exact nofun
    | or =>
      obtain ⟨c, hc, -⟩ := ht
      cases hc
  quiet _ := nofun
  tallied _ := .start _ k
  tally_le _ := Nat.zero_le V

theorem collected_start (h : Borrowed P { e₀ with sessions := e.sessions } e S H)
    (ho : e₀.Ordered) (hP : Loan.Allows P e₀) (he : e₀.Indexed)
    (heligible : ∀ c ∈ group, c.eligible) {full : Prop} {V : Nat}
    (hfull : full → (group ≠ [] → e.Accepts id group) ∧
      GroupAnswers e₀ (e.session id).scope k group V) :
    Ensures (Query.start id k group) e fun
      | .error _, _ => ¬ full
      | .ok none, e' => Beyond e.cursors.size e.cursors e'.cursors ∧ k = .and ∧
          (full → ∀ t, ¬ e₀.FindsGroup (e.session id).scope k group t)
      | .ok (some m), e' => Beyond e.cursors.size e.cursors e'.cursors ∧
          ∃ ps, Collected e.cursors.size e' k True full V
            (e₀.FindsGroup (e.session id).scope k group) (group ≠ []) m ps := by
  rw [Query.start]
  cases group with
  | nil => exact ⟨.refl _ _, [], .of_nil k _ V⟩
  | cons c rest =>
    rw [List.isEmpty_cons, if_neg Bool.false_ne_true]
    refine (surveyed_plan h ho hP).bind ?_ ?_
    · rintro m e₁ ⟨hb, cands, ids, outs, hcands, hsurvey, hm⟩
      have hcollected := hsurvey.collected he heligible hcands
        (fun hf => (hfull hf).2) hm
      rw [ensures_pure]
      split at hcollected
      next hand =>
        rw [if_pos hand]
        exact ⟨hb, hand.1, hcollected⟩
      next hand =>
        rw [if_neg hand]
        exact ⟨hb, hcollected⟩
    · exact fun f e₁ h₁ hf => h₁ ⟨(hfull hf).1 (List.cons_ne_nil c rest), V, (hfull hf).2⟩

end

def Connective.Both (k : Connective) (a b : Prop) : Prop :=
  match k with
  | .and => a ∧ b
  | .or => a ∨ b

/-- What a node asks of a part: nothing if the part is absent. -/
def Query.Asks (ask : Connective → Group → Condition → Prop) (k : Connective) (part : Query) :
    Prop :=
  match k with
  | .and => ¬ part.isAbsent → part.Holds ask
  | .or => part.Holds ask

namespace Collected

variable {n : Nat} {e e' : Engine} {k : Connective} {sound full : Prop} {V V' : Nat}
  {D T : Token → Prop} {asked : Prop} {m : Merge} {ps : List Part}

theorem lt_size (h : Collected n e k sound full V D asked m ps) :
    ∀ i ∈ Part.allReads ps, i < e.cursors.size := fun i hi => (h.fed.inputs.mem_reads i hi).2

theorem frame (h : Collected n e k sound full V D asked m ps)
    (hb : Beyond e.cursors.size e.cursors e'.cursors) :
    Collected n e' k sound full V D asked m ps := by
  have hcs : ∀ i ∈ Part.allReads ps, e'.cursors[i]? = e.cursors[i]? := fun i hi =>
    hb i (h.lt_size i hi)
  have hinputs : ∀ x ∈ m.inputs, e'.cursors[x]? = e.cursors[x]? := fun x hx =>
    hb x (h.fed.inputs.lt_size x hx)
  refine ⟨h.connective, h.fed.frame hcs, h.nothing_else, h.all, fun hf => (h.quiet hf).frame hcs,
    fun hf => (h.tallied hf).frame hinputs, fun hf => ?_⟩
  rw [tally_congr hinputs]
  exact h.tally_le hf

theorem sound_of {sound' : Prop} (h : Collected n e k sound full V D asked m ps)
    (hs : sound' → sound) : Collected n e k sound' full V D asked m ps :=
  { h with nothing_else := fun hs' => h.nothing_else (hs hs') }

theorem asks {asked' : Prop} (h : Collected n e k sound full V D True m ps) :
    Collected n e k sound full V D asked' m ps :=
  { h with all := fun hf t ht => ⟨(h.all hf t ht).1, fun _ => (h.all hf t ht).2 trivial⟩ }

theorem skip (h : Collected n e .or sound full V D asked m ps) (hnone : full → ∀ t, ¬ T t) :
    Collected n e .or sound full (V + V') (fun t => Connective.or.Both (D t) (T t)) True m ps := by
  refine ⟨h.connective, h.fed, fun hs t ht => .inl (h.nothing_else hs t ht), fun hf t ht => ?_,
    h.quiet, h.tallied, fun hf => (h.tally_le hf).trans (Nat.le_add_right _ _)⟩
  have hwithin := (h.all hf t (ht.resolve_right (hnone hf t))).1
  exact ⟨hwithin, fun _ => (Connective.or_joins.2 hwithin).1⟩

theorem add (h : Collected n e k sound full V D asked m ps) {x : Nat} {p : Part}
    (hx : Opened n e.cursors x p) (hdisjoint : ∀ i ∈ Part.allReads ps, i ∉ p.reads)
    (hsound : sound → ∀ t ∈ p.tokens, T t)
    (hkept : sound → k = .and → Merge.admits e.cursors x)
    (hfull : full → (∀ t, T t → t ∈ p.tokens) ∧ Quiet e.cursors p.reads ∧ Counted V' e.cursors x p)
    (hV : full → V + V' < 2 ^ 64) :
    ∃ ps', Collected n e k sound full (V + V') (fun t => k.Both (D t) (T t)) True
      (m.takeIn e.cursors x) ps' := by
  have hconnective : (m.takeIn e.cursors x).connective = k := by
    rw [Merge.takeIn_connective, h.connective]
  by_cases hadmits : Merge.admits e.cursors x
  · have htake : m.takeIn e.cursors x = m.push x (Merge.extentOf e.cursors x) := if_pos hadmits
    have htally : full → tally e.cursors (m.inputs ++ [x]) ≤ V + V' := by
      intro hf
      rw [tally_append, tally_singleton]
      exact Nat.add_le_add (h.tally_le hf) (hfull hf).2.2.le
    rw [htake] at hconnective ⊢
    refine ⟨ps ++ [p], hconnective, h.fed.push hx hdisjoint, fun hs t ht => ?_,
      fun hf t ht => ⟨?_, fun _ => by simp⟩, fun hf => ?_, fun hf => ?_, fun hf => htally hf⟩
    · cases k with
      | and =>
        obtain ⟨hps, hp⟩ := Connective.and_within_concat.1 ht
        exact ⟨h.nothing_else hs t hps, hsound hs t hp⟩
      | or => exact (Connective.or_within_concat.1 ht).imp (h.nothing_else hs t) (hsound hs t)
    · cases k with
      | and => exact Connective.and_within_concat.2 ⟨(h.all hf t ht.1).1, (hfull hf).1 t ht.2⟩
      | or =>
        refine Connective.or_within_concat.2 (ht.imp (fun hD => (h.all hf t hD).1) ?_)
        exact (hfull hf).1 t
    · rw [Part.allReads, List.flatMap_append, List.flatMap_singleton]
      exact (h.quiet hf).append (hfull hf).2.1
    · exact (h.tallied hf).push hadmits ((htally hf).trans_lt (hV hf))
  · have htake : m.takeIn e.cursors x = m := if_neg hadmits
    have hnone : full → ∀ t, ¬ T t := by
      intro hf t ht
      exact hadmits ((hfull hf).2.2.ne (List.ne_nil_of_mem ((hfull hf).1 t ht)))
    rw [htake]
    cases k with
    | and =>
      exact ⟨ps, h.connective, h.fed, fun hs => absurd (hkept hs rfl) hadmits,
        fun hf t ht => absurd ht.2 (hnone hf t), h.quiet, h.tallied,
        fun hf => (h.tally_le hf).trans (Nat.le_add_right _ _)⟩
    | or => exact ⟨ps, h.skip hnone⟩

end Collected

/-- A session that goes on has none of some groups open, which are all different. -/
structure Engine.Ready (e : Engine) (id : SessionId) (gs : List Group) : Prop where
  running : ¬ (e.session id).finished
  new : ∀ g ∈ gs, ¬ (e.session id).groups.contains g
  apart : gs.Pairwise fun g g' => Group.compare g g' ≠ .eq

namespace Engine.Ready

variable {e e' : Engine} {id : SessionId} {gs gs' : List Group}

theorem left (h : e.Ready id (gs ++ gs')) : e.Ready id gs where
  running := h.running
  new g hg := h.new g (List.mem_append_left _ hg)
  apart := (List.pairwise_append.1 h.apart).1

theorem after (h : e.Ready id (gs ++ gs')) (ho : Opening id gs e e') : e'.Ready id gs' where
  running := by
    rw [ho.finished]
    exact h.running
  new g hg hcontains := by
    rcases ho.groups g hcontains with hold | ⟨g', hg', heq⟩
    · exact h.new g (List.mem_append_right _ hg) hold
    · exact (List.pairwise_append.1 h.apart).2.2 g' hg' g hg heq
  apart := (List.pairwise_append.1 h.apart).2.1

end Engine.Ready

def Group.volume (e : Engine) (scope : List DataFile) (k : Connective) (group : Group) : Nat :=
  (((Candidate.ofGroup e scope k group).toOption.getD []).map fun d => d.volume e).sum

namespace Query

def Finds (e : Engine) (scope : List DataFile) (q : Query) (t : Token) : Prop :=
  q.Holds (e.Finds scope t)

def volume (e : Engine) (scope : List DataFile) : Query → Nat
  | absent => 0
  | node k group left right =>
    (((Candidate.ofGroup e scope k group).toOption.getD []).map fun d => d.volume e).sum +
      (left.volume e scope + right.volume e scope)

/-- Each conjunction has something to search for, and all searches succeed and can be counted. -/
structure Served (e : Engine) (scope : List DataFile) (q : Query) : Prop where
  answered : q.Every fun k group _ _ => ∃ cands, Candidate.ofGroup e scope k group = .ok cands ∧
    ∀ d ∈ cands, d.Answers e
  proper : q.Proper
  small : q.volume e scope < 2 ^ 64

/-- What it takes to build a node in full: the searches for its group succeed, its parts are served,
and the session takes in its group. -/
structure Feeds (e₀ e : Engine) (id : SessionId) (scope : List DataFile) (k : Connective)
    (group : Group) (left right : Query) : Prop where
  answers : GroupAnswers e₀ scope k group (Group.volume e₀ scope k group)
  servedLeft : left.Served e₀ scope
  servedRight : right.Served e₀ scope
  small : (node k group left right).volume e₀ scope < 2 ^ 64
  asked : k = .and → (group ≠ [] ∨ ¬ left.isAbsent) ∨ ¬ right.isAbsent
  accepts : group ≠ [] → e.Accepts id group

theorem volume_node (e : Engine) (scope : List DataFile) (k : Connective) (group : Group)
    (left right : Query) : (node k group left right).volume e scope =
      Group.volume e scope k group + left.volume e scope + right.volume e scope :=
  (Nat.add_assoc _ _ _).symm

theorem Served.feeds {e₀ e : Engine} {id : SessionId} {scope : List DataFile} {k : Connective}
    {group : Group} {left right : Query} (h : (node k group left right).Served e₀ scope)
    (hready : e.Ready id (node k group left right).groups) :
    Feeds e₀ e id scope k group left right := by
  obtain ⟨⟨⟨cands, hcands, hall⟩, hl, hr⟩, ⟨hproper, hpl, hpr⟩, hsmall⟩ := h
  have hvolume : (cands.map fun d => d.volume e₀).sum = Group.volume e₀ scope k group := by
    rw [Group.volume, hcands]
    rfl
  have hsum := volume_node e₀ scope k group left right
  refine ⟨⟨⟨cands, hcands, hall, hvolume⟩, by omega⟩, ⟨hl, hpl, by omega⟩, ⟨hr, hpr, by omega⟩,
    hsmall, fun hk => or_assoc.2 (hproper hk), fun hne => ?_⟩
  have hnew := hready.new group
  rw [groups, if_neg (by simpa using hne)] at hnew
  exact ⟨hready.running, hnew (by simp)⟩

/-- A part that a conjunction has to take in: its cursor counts some tokens. -/
def Shows (id : SessionId) (k : Connective) (part : Query) (e : Engine) : Prop :=
  Ensures (part.build id) e fun
    | .ok (some x), e => k = .and → Merge.admits e.cursors x
    | _, _ => True

instance (id : SessionId) (k : Connective) (part : Query) (e : Engine) :
    Decidable (part.Shows id k e) :=
  Ensures.decidable fun r _ =>
    match r with
    | .ok (some _) => inferInstanceAs (Decidable (_ → _))
    | .ok none => .isTrue trivial
    | .error _ => .isTrue trivial

/-- While the query is built, no conjunction leaves out a part of it. -/
def Kept (id : SessionId) : Query → Engine → Prop
  | absent, _ => True
  | node k group left right, e =>
    Ensures (start id k group) e fun
      | .ok (some m), e => left.Kept id e ∧ left.Shows id k e ∧
        Ensures (join m left (left.build id)) e fun
          | .ok (some _), e => right.Kept id e ∧ right.Shows id k e
          | _, _ => True
      | _, _ => True

instance decidableKept (id : SessionId) : ∀ (q : Query) (e : Engine), Decidable (q.Kept id e)
  | absent, _ => .isTrue trivial
  | node k _ left right, _ => Ensures.decidable fun r e₁ =>
    match r with
    | .ok (some _) =>
      have := decidableKept id left e₁
      have : ∀ m, Decidable (Ensures (join m left (left.build id)) e₁ fun
          | .ok (some _), e => right.Kept id e ∧ right.Shows id k e
          | _, _ => True) := fun _ => Ensures.decidable fun r e₂ =>
        match r with
        | .ok (some _) =>
          have := decidableKept id right e₂
          inferInstanceAs (Decidable (_ ∧ _))
        | .ok none => .isTrue trivial
        | .error _ => .isTrue trivial
      inferInstanceAs (Decidable (_ ∧ _ ∧ _))
    | .ok none => .isTrue trivial
    | .error _ => .isTrue trivial

end Query

section

variable {P : List Segment → Prop} {e₀ e : Engine} {S H : List Nat} {id : SessionId}
  {k : Connective} {n : Nat} {sound full : Prop} {V V' : Nat} {D T : Token → Prop} {asked : Prop}
  {m : Merge} {ps : List Part} {part : Query}

theorem Query.Asks.of_absent {ask : Connective → Group → Condition → Prop} (h : part.isAbsent) :
    (∀ a, k.Both a (part.Asks ask k) ↔ a) := by
  cases part with
  | node => cases h
  | absent => cases k <;> simp [Connective.Both, Asks, Query.Holds, Query.isAbsent]

theorem Collected.join (hn : n ≤ e.cursors.size)
    (h : Collected n e k sound full V D asked m ps)
    {ask : Token → Connective → Group → Condition → Prop}
    (hbuild : Ensures (part.build id) e
      (Yields e.cursors sound full V' fun t => part.Holds (ask t)))
    (hkept : sound → part.Shows id k e) (hV : full → V + V' < 2 ^ 64) :
    Ensures (Query.join m part (part.build id)) e fun
      | .error _, _ => ¬ full
      | .ok none, e' => Beyond n e.cursors e'.cursors ∧ k = .and ∧
          (full → ∀ t, ¬ k.Both (D t) (part.Asks (ask t) k))
      | .ok (some m), e' => Beyond n e.cursors e'.cursors ∧
          ∃ ps, Collected n e' k sound full (V + V')
            (fun t => k.Both (D t) (part.Asks (ask t) k)) (asked ∨ ¬ part.isAbsent) m ps := by
  rw [Query.join]
  by_cases habsent : part.isAbsent
  · rw [if_pos habsent, ensures_pure]
    refine ⟨.refl _ _, ps, ?_⟩
    simp only [Query.Asks.of_absent habsent]
    refine ⟨h.connective, h.fed, h.nothing_else, fun hf t ht => ⟨(h.all hf t ht).1, fun ha => ?_⟩,
      h.quiet, h.tallied, fun hf => (h.tally_le hf).trans (Nat.le_add_right _ _)⟩
    exact (h.all hf t ht).2 (ha.resolve_right fun hnot => hnot habsent)
  rw [if_neg habsent]
  have hasks : ∀ t, part.Asks (ask t) k ↔ part.Holds (ask t) := by
    intro t
    cases k with
    | and => exact ⟨fun h => h habsent, fun h _ => h⟩
    | or => exact Iff.rfl
  simp only [hasks]
  have hkept' : Ensures (part.build id) e fun r e' => sound → ∀ x, r = .ok (some x) → k = .and →
      Merge.admits e'.cursors x := by
    intro hs x hx
    have hshows := hkept hs
    rw [Query.Shows, Ensures, hx] at hshows
    exact hshows
  refine (hbuild.and hkept').bind ?_ fun _ _ h => h.1
  rintro (_ | x) e₁ ⟨h₁, hkept₁⟩
  · obtain ⟨hb, hnone⟩ := h₁
    rw [ensures_pure, h.connective]
    cases k with
    | and => exact ⟨hb.mono hn, rfl, fun hf t ht => hnone hf t ht.2⟩
    | or => exact ⟨hb.mono hn, ps, ((h.frame hb).skip hnone).asks⟩
  · obtain ⟨hb, p, hopened, hsound, hfull⟩ := h₁
    rw [ensures_map, Merge.ensures_add]
    have hdisjoint : ∀ i ∈ Part.allReads ps, i ∉ p.reads := fun i hi hi' =>
      Nat.not_lt.2 (hopened.new i hi') (h.lt_size i hi)
    obtain ⟨ps', h'⟩ := (h.frame hb).add (hopened.mono hn) hdisjoint hsound
      (fun hs => hkept₁ hs x rfl) hfull hV
    exact ⟨hb.mono hn, ps', h'.asks⟩

theorem Query.finds_node {e : Engine} {scope : List DataFile} {k : Connective} {group : Group}
    {left right : Query} {t : Token} :
    (node k group left right).Finds e scope t ↔
      k.Both (k.Both (e.FindsGroup scope k group t) (left.Asks (e.Finds scope t) k))
        (right.Asks (e.Finds scope t) k) := by
  cases k with
  | and => exact and_assoc.symm
  | or => exact or_assoc.symm

theorem Yields.imp {cs : Array Cursor} {sound' full' : Prop} {r : Except Fault (Option Nat)}
    (h : Yields cs sound full V T r e) (hs : sound' → sound) (hf : full' → full) :
    Yields cs sound' full' V T r e := by
  rcases r with f | _ | x
  · exact fun hf' => h (hf hf')
  · exact ⟨h.1, fun hf' => h.2 (hf hf')⟩
  · obtain ⟨hb, p, hopened, hsound, hfull⟩ := h
    exact ⟨hb, p, hopened, fun hs' => hsound (hs hs'), fun hf' => hfull (hf hf')⟩

theorem Collected.joins (h : Collected n e k sound full V D asked m ps)
    (hasked : full → k = .and → asked) (hf : full) {t : Token} (ht : D t) : k.Joins ps t := by
  obtain ⟨hwithin, hsome⟩ := h.all hf t ht
  cases k with
  | and => exact ⟨hsome (hasked hf rfl), hwithin⟩
  | or => exact Connective.or_joins.2 hwithin

theorem Collected.build (h : Collected n e k sound full V D asked m ps) (hn : n ≤ e.cursors.size)
    (hasked : full → k = .and → asked) :
    Ensures m.build e fun
      | .error _, _ => ¬ full
      | .ok none, e' => Beyond n e.cursors e'.cursors ∧ (full → ∀ t, ¬ D t)
      | .ok (some x), e' => Beyond n e.cursors e'.cursors ∧ ∃ p, Opened n e'.cursors x p ∧
          (sound → ∀ t ∈ p.tokens, D t) ∧
          (full → (∀ t, D t → t ∈ p.tokens) ∧ Quiet e'.cursors p.reads ∧
            Counted V e'.cursors x p) := by
  refine (h.fed.build hn).mono ?_
  rintro (f | _ | x) e' hbuilt
  · exact fun hf => hbuilt (h.quiet hf)
  · obtain ⟨rfl, rfl⟩ := hbuilt
    exact ⟨.refl _ _, fun hf t ht => (h.joins hasked hf ht).1 rfl⟩
  · obtain ⟨hb, p, hstands⟩ := hbuilt
    have htokens := hstands.tokens
    rw [h.connective] at htokens
    refine ⟨hb, p, hstands.opened, fun hs t ht => ?_, fun hf => ⟨fun t ht => ?_, ?_, ?_⟩⟩
    · exact h.nothing_else hs t ((htokens t).1 ht).2
    · exact (htokens t).2 (h.joins hasked hf ht)
    · exact hstands.quiet (h.quiet hf)
    · obtain ⟨hle, hne⟩ := hstands.counted (h.tallied hf)
      exact ⟨hle.trans (h.tally_le hf), hne⟩

theorem Collected.finish {cs : Array Cursor} {W : Nat} {T : Token → Prop}
    (h : Collected cs.size e k sound full V D asked m ps) (hb : Beyond cs.size cs e.cursors)
    {ask : Token → Connective → Group → Condition → Prop}
    (hbuild : Ensures (part.build id) e
      (Yields e.cursors sound full V' fun t => part.Holds (ask t)))
    (hkept : sound → part.Shows id k e) (hsum : V + V' = W) (hW : full → W < 2 ^ 64)
    (hasked : full → k = .and → asked ∨ ¬ part.isAbsent)
    (hT : ∀ {t}, T t ↔ k.Both (D t) (part.Asks (ask t) k)) :
    Ensures (do match ← Query.join m part (part.build id) with
      | none => return none
      | some m => m.build) e (Yields cs sound full W T) := by
  subst hsum
  have hn := hb.le_size (Nat.le_refl _)
  refine (h.join hn hbuild hkept hW).bind ?_ fun _ _ h => h
  rintro (_ | m) e₁ h₁
  · exact ⟨hb.trans h₁.1, fun hf t ht => h₁.2.2 hf t (hT.1 ht)⟩
  obtain ⟨hb₁, ps₁, hcollected⟩ := h₁
  refine (hcollected.build (hb₁.le_size hn) hasked).mono ?_
  rintro (f | _ | x) e₂ h₂
  · exact h₂
  · exact ⟨hb.trans (hb₁.trans h₂.1), fun hf t ht => h₂.2 hf t (hT.1 ht)⟩
  · obtain ⟨hb₂, p, hopened, hsound, hfull⟩ := h₂
    refine ⟨hb.trans (hb₁.trans hb₂), p, hopened, fun hs t ht => hT.2 (hsound hs t ht),
      fun hf => ?_⟩
    exact ⟨fun t ht => (hfull hf).1 t (hT.1 ht), (hfull hf).2⟩

/-- The cursor that is built for a query is a stream of what is found for it. -/
theorem yields_build (q : Query) (h : Loan.Borrowed P { e₀ with sessions := e.sessions } e S H)
    (ho : e₀.Ordered) (hP : Loan.Allows P e₀) (he : e₀.Indexed) (heligible : q.Eligible)
    {scope : List DataFile} (hscope : (e.session id).scope = scope) :
    Ensures (q.build id) e (Yields e.cursors (q.Kept id e)
      (q.Served e₀ scope ∧ e.Ready id q.groups) (q.volume e₀ scope) (q.Finds e₀ scope)) := by
  induction q generalizing e with
  | absent => exact ⟨.refl _ _, fun _ _ hf => hf⟩
  | node k group left right ihl ihr =>
    obtain ⟨heligible, hel, her⟩ := heligible
    -- `kept` rules out rows too many, `full` rows too few; each step passes both on to the next.
    generalize hkeptDef : (Query.node k group left right).Kept id e = kept
    generalize hfull : ((Query.node k group left right).Served e₀ scope ∧
      e.Ready id (Query.node k group left right).groups) = full
    have hnode : full → Query.Feeds e₀ e id scope k group left right := fun hf =>
      (hfull ▸ hf).1.feeds (hfull ▸ hf).2
    have hready : full → e.Ready id ((if group.isEmpty then [] else [group]) ++
        (left.groups ++ right.groups)) := fun hf => (hfull ▸ hf).2
    have hsum := Query.volume_node e₀ scope k group left right
    have hsmall : full → Group.volume e₀ scope k group + left.volume e₀ scope +
        right.volume e₀ scope < 2 ^ 64 := fun hf => hsum ▸ (hnode hf).small
    have hkept : Ensures (Query.start id k group) e fun r e' =>
        kept → ∀ m, r = .ok (some m) →
          left.Kept id e' ∧ left.Shows id k e' ∧
            Ensures (Query.join m left (left.build id)) e' fun
              | .ok (some _), e => right.Kept id e ∧ right.Shows id k e
              | _, _ => True := by
      intro hs m hm
      rw [← hkeptDef, Query.Kept, Ensures, hm] at hs
      exact hs
    rw [Query.build]
    have hcollect := collected_start h ho hP he heligible fun hf : full =>
      ⟨(hnode hf).accepts, hscope ▸ (hnode hf).answers⟩
    refine ((Loan.start h hP).and (hcollect.and (hkept.and (Query.opensOnly_start k group e)))).bind
      ?_ fun _ _ h₁ hf => h₁.2.1 hf
    simp only [hscope]
    rintro (_ | m) e₁ ⟨⟨h₁, hm₁⟩, hstart, hkept₁, ho₁⟩
    · obtain ⟨hb₁, rfl, hnone⟩ := hstart
      exact ⟨hb₁, fun hf t ht => hnone hf t ht.1⟩
    obtain ⟨hb₁, ps₁, hcollected₁⟩ := hstart
    have hn₁ := hb₁.le_size (Nat.le_refl _)
    have hready₁ : full → e₁.Ready id (left.groups ++ right.groups) := fun hf =>
      (hready hf).after ho₁
    have hleft := (ihl h₁.held hel (ho₁.scope.trans hscope)).mono fun _ _ hy =>
      hy.imp (fun hs => (hkept₁ hs m rfl).1) fun hf => ⟨(hnode hf).servedLeft, (hready₁ hf).left⟩
    have hkept₂ : Ensures (Query.join m left (left.build id)) e₁ fun r e₂ =>
        kept → ∀ m₂, r = .ok (some m₂) → right.Kept id e₂ ∧ right.Shows id k e₂ := by
      intro hs m₂ hm₂
      have hjoin := (hkept₁ hs m rfl).2.2
      rw [Ensures, hm₂] at hjoin
      exact hjoin
    have hjoined := (hcollected₁.sound_of fun _ : kept => trivial).join hn₁ hleft
      (fun hs => (hkept₁ hs m rfl).2.1)
      fun hf => Nat.lt_of_le_of_lt (Nat.le_add_right _ _) (hsmall hf)
    refine ((Loan.join (Loan.build left h₁.held hP) h₁.held (hm₁ m rfl)).and (hjoined.and
      (hkept₂.and (Query.opensOnly_join (Query.opensOnly_build left) e₁)))).bind
        ?_ fun _ _ h₂ hf => h₂.2.1 hf
    -- Nothing comes of a conjunction once its left part has nothing.
    rintro (_ | m₂) e₂ ⟨⟨h₂, hm₂⟩, hjoin₂, hkept₂, ho₂⟩
    · obtain ⟨hb₂, rfl, hnone⟩ := hjoin₂
      refine ⟨hb₁.trans hb₂, fun hf t ht => hnone hf t ?_⟩
      exact (Query.finds_node.1 ht).1
    obtain ⟨hb₂, ps₂, hcollected₂⟩ := hjoin₂
    have hright := (ihr h₂.held her (ho₂.scope.trans (ho₁.scope.trans hscope))).mono fun _ _ hy =>
      hy.imp (fun hs => (hkept₂ hs m₂ rfl).1)
        fun hf => ⟨(hnode hf).servedRight, (hready₁ hf).after ho₂⟩
    exact hcollected₂.finish (hb₁.trans hb₂) hright (fun hs => (hkept₂ hs m₂ rfl).2) hsum.symm
      (fun hf => (hnode hf).small) (fun hf => (hnode hf).asked) Query.finds_node

end

end SecondaryIndex
