import SecondaryIndex.Proofs.Loan.Closing
import SecondaryIndex.Proofs.Merging
import SecondaryIndex.Query

namespace SecondaryIndex.Loan

open Act Cursor

/-- What a step of planning makes of `e`: in hand are `S` and `H`, and of the cursors that it
opened, only matches in `ids` are open. -/
structure Planned (P : List Segment → Prop) (e₀ e e' : Engine) (S H ids : List Nat) : Prop where
  held : Borrowed P e₀ e' S H
  ext : Extends e.cursors e'.cursors
  opens : Opens e.cursors e'.cursors ids

variable {P : List Segment → Prop} {e₀ e e' e'' : Engine} {S S' H H' ids ids' : List Nat}

theorem Planned.of_closes (h : Borrowed P e₀ e' S H) (hc : Closes e.cursors e'.cursors) :
    Planned P e₀ e e' S H [] := ⟨h, hc.ext, (Opens.refl _ _).close hc⟩

theorem Planned.of_eq (h : Borrowed P e₀ e' S H) (hc : e'.cursors = e.cursors) :
    Planned P e₀ e e' S H [] := .of_closes h (hc ▸ .refl _)

theorem Extends.admits {cs cs' : Array Cursor} (h : Extends cs cs') {x : Nat} (hx : x < cs.size) :
    Merge.admits cs' x = Merge.admits cs x := by
  have hc := Array.getElem?_eq_getElem hx
  obtain ⟨c', hc', -, he, -⟩ := h x _ hc
  simp only [Merge.admits, Merge.extentOf, Array.getD_eq_getD_getElem?, hc, hc', Option.getD_some,
    he]

theorem IsLeaf.lt_size {cs : Array Cursor} {x : Nat} (h : IsLeaf cs x) : x < cs.size := by
  obtain ⟨c, hc, -⟩ := h
  exact (Array.getElem?_eq_some_iff.1 hc).1

def IsMemory (cs : Array Cursor) (x : Nat) : Prop :=
  ∃ c, cs[x]? = some c ∧ c.source.isTokens = true ∧ c.source.handedOut = false

theorem IsMemory.isLeaf {cs : Array Cursor} {x : Nat} (h : IsMemory cs x) : IsLeaf cs x :=
  have ⟨c, hc, ht, _⟩ := h
  ⟨c, hc, ht⟩

theorem IsMemory.extends {cs cs' : Array Cursor} {x : Nat} (h : IsMemory cs x)
    (hx : Extends cs cs') : IsMemory cs' x := by
  obtain ⟨c, hc, ht, hout⟩ := h
  obtain ⟨c', hc', hs, -⟩ := hx x c hc
  exact ⟨c', hc', by rw [← Source.isTokens_blank, hs, Source.isTokens_blank, ht],
    by rw [← Source.handedOut_blank, hs, Source.handedOut_blank, hout]⟩

theorem Planned.trans (h : Planned P e₀ e e' S H ids) (h' : Planned P e₀ e' e'' S' H' ids') :
    Planned P e₀ e e'' S' H' (ids ++ ids') :=
  ⟨h'.held, h.ext.trans h'.ext, h.opens.trans h'.ext h'.opens⟩

namespace Borrowed

theorem openTokens (h : Borrowed P e₀ e S H) (ts : List Token) (closeFault : Option Fault)
    (origin : Option Nat) : Ensures (Cursor.ofTokens ts closeFault origin).openAs e fun r e' =>
      r = .ok e.cursors.size ∧
        e' = { e with cursors := e.cursors.push (.ofTokens ts closeFault origin) } ∧
        Planned P e₀ e e' S (e.cursors.size :: H) [] ∧ IsLeaf e'.cursors e.cursors.size := by
  rw [ensures_openAs]
  have hleaf : IsLeaf (e.cursors.push (.ofTokens ts closeFault origin)) e.cursors.size :=
    ⟨_, Array.getElem?_push_size, rfl⟩
  refine ⟨rfl, rfl, ⟨h.pushInner rfl ⟨h.size_le, _, Array.getElem?_push_size, .inl rfl⟩,
    .push _ _, (Opens.refl _ _).push_of_ne nofun⟩, hleaf⟩

theorem search (h : Borrowed P e₀ e S H) (s : Segment) (c : Condition) :
    Ensures (s.search c) e fun
      | .ok (some id), e' => Planned P e₀ e e' S (id :: H) [] ∧ IsLeaf e'.cursors id
      | .ok none, e' => e' = e
      | .error _, e' => e' = e := by
  rw [Segment.search, ensures_get_bind]
  cases e.segment? s with
  | none => rfl
  | some state =>
    simp only
    split
    · rfl
    · rw [ensures_settle_bind]
      cases state.reader.search c with
      | error f => rfl
      | ok found =>
        cases found with
        | none => rfl
        | some found =>
          simp only [ensures_map]
          refine (h.openTokens _ _ _).mono ?_
          rintro r e' ⟨rfl, -, h'⟩
          exact h'

theorem giveUp {s : Segment} (h : Planned P e₀ e e' (s.id :: S) H []) :
    Ensures s.release e' fun r e'' => r = .ok () ∧ Planned P e₀ e e'' S H [] := by
  refine (release h.held).mono ?_
  rintro r e'' ⟨hr, hcs, h'⟩
  exact ⟨hr, h.trans (.of_eq h' hcs)⟩

theorem closeEmpty {s : Segment} {x : Nat} (h : Planned P e₀ e e' (s.id :: S) (x :: H) [])
    (hleaf : IsLeaf e'.cursors x) :
    Ensures (do
      Act.orUndo (Cursor.close x) s.release
      s.release
      return (none : Option CursorId)) e' fun r e'' =>
        (∀ found, r = .ok found → found = none) ∧ Planned P e₀ e e'' S H [] := by
  have hclosed : Ensures (Cursor.close x) e' fun _ e'' =>
      Planned P e₀ e e'' (s.id :: S) H [] := by
    refine (closeLeaf h.held hleaf (Nat.succ_pos x)).mono ?_
    rintro _ e'' ⟨h'', hc⟩
    exact h.trans (.of_closes h'' hc)
  refine Ensures.bind (R := fun
    | .ok (), e'' => Planned P e₀ e e'' (s.id :: S) H []
    | .error _, e'' => Planned P e₀ e e'' S H [])
    (hclosed.orUndo (fun _ _ h => h) fun f e'' h'' => (giveUp h'').mono fun _ _ h => h.2) ?_ ?_
  · intro _ e₁ h₁
    refine (giveUp h₁).bind_ok ?_
    intro e₂ h₂
    exact ⟨fun _ hfound => (Except.ok.inj hfound).symm, h₂⟩
  · exact fun f e₁ h₁ => ⟨nofun, h₁⟩

theorem probe (h : Borrowed P e₀ e S H) (c : Condition) (s : Segment) :
    Ensures (Matches.probe c s) e fun
      | .ok (some id), e' => Planned P e₀ e e' (s.id :: S) (id :: H) [] ∧
          IsLeaf e'.cursors id ∧ Merge.admits e'.cursors id
      | .ok none, e' => Planned P e₀ e e' S H []
      | .error _, e' => Planned P e₀ e e' S H [] := by
  rw [Matches.probe]
  refine (h.retain s).bind ?_ ?_
  swap
  · rintro f e' ⟨-, ⟨hr, -⟩ | ⟨hr, -⟩⟩ <;> cases hr
  rintro b e₁ ⟨hcs, ⟨hb, h₁⟩ | ⟨hb, h₁⟩⟩ <;> cases hb
  · exact .of_eq h₁ hcs
  have hplanned : Planned P e₀ e e₁ (s.id :: S) H [] := .of_eq h₁ hcs
  refine Ensures.bind (R := fun
    | .ok (some id), e' => Planned P e₀ e e' (s.id :: S) (id :: H) [] ∧ IsLeaf e'.cursors id
    | .ok none, e' => Planned P e₀ e e' (s.id :: S) H []
    | .error _, e' => Planned P e₀ e e' S H [])
    ((h₁.search s c).orUndo ?_ ?_) ?_ (fun _ _ h => h)
  · rintro (_ | x) e₂ h₂
    · obtain rfl : e₂ = e₁ := h₂
      exact hplanned
    · exact ⟨hplanned.trans h₂.1, h₂.2⟩
  · rintro f e₂ h₂
    obtain rfl : e₂ = e₁ := h₂
    exact (giveUp hplanned).mono fun _ _ h => h.2
  rintro (_ | x) e₂ h₂
  · refine (giveUp h₂).bind_ok ?_
    intro e₃ h₃
    exact h₃
  obtain ⟨h₂, hleaf⟩ := h₂
  obtain ⟨d, hd, -⟩ := id hleaf
  simp only [ensures_state_bind, Array.getD_eq_getD_getElem?, hd, Option.getD_some]
  by_cases hcount : d.extent.count = 0
  · rw [if_pos hcount]
    refine (closeEmpty h₂ hleaf).mono ?_
    rintro (f | found) e₃ ⟨hnone, h₃⟩
    · exact h₃
    · obtain rfl := hnone found rfl
      exact h₃
  · rw [if_neg hcount]
    have hadmits : Merge.admits e₂.cursors x := by
      simp [Merge.admits, Merge.extentOf, hd, hcount]
    exact ⟨h₂, hleaf, hadmits⟩

/-- Searching one segment after the other. -/
theorem gather (c : Condition) (segments : List Segment) (h : Borrowed P e₀ e S H) :
    Ensures (Matches.gather c segments) e fun
      | .ok found, e' => Planned P e₀ e e' (found.map (·.2.id) ++ S) (found.map Prod.fst ++ H) [] ∧
          (found.map Prod.snd).Sublist segments ∧
          ∀ x ∈ found.map Prod.fst, IsLeaf e'.cursors x ∧ Merge.admits e'.cursors x
      | .error _, e' => Planned P e₀ e e' S H [] := by
  induction segments generalizing e S H with
  | nil => exact ⟨.of_eq h rfl, .slnil, by simp⟩
  | cons s rest ih =>
    rw [Matches.gather]
    refine (h.probe c s).bind ?_ (fun _ _ h => h)
    rintro (_ | x) e₁ h₁
    · refine (ih h₁.held).mono ?_
      rintro (f | found) e₂ h₂
      · exact h₁.trans h₂
      · exact ⟨h₁.trans h₂.1, h₂.2.1.cons s, h₂.2.2⟩
    obtain ⟨h₁, hleaf, hcount⟩ := h₁
    refine Ensures.bind (R := fun
      | .ok found, e' => Planned P e₀ e e' (found.map (·.2.id) ++ s.id :: S)
            (found.map Prod.fst ++ x :: H) [] ∧ (found.map Prod.snd).Sublist rest ∧
          IsLeaf e'.cursors x ∧ Merge.admits e'.cursors x ∧
          ∀ x ∈ found.map Prod.fst, IsLeaf e'.cursors x ∧ Merge.admits e'.cursors x
      | .error _, e' => Planned P e₀ e e' S H [])
      ((ih h₁.held).orUndo ?_ ?_) ?_ (fun _ _ h => h)
    · rintro found e₂ ⟨h₂, hsub, hfound⟩
      exact ⟨h₁.trans h₂, hsub, hleaf.extends h₂.ext,
        (h₂.ext.admits hleaf.lt_size).trans hcount, hfound⟩
    · intro f e₂ h₂
      refine (closeLeaf h₂.held (hleaf.extends h₂.ext) (Nat.succ_pos x)).quietly_bind ?_
      rintro _ e₃ ⟨h₃, hc⟩
      exact (giveUp ((h₁.trans h₂).trans (.of_closes h₃ hc))).mono fun _ _ h => h.2
    · rintro found e₂ ⟨h₂, hsub, hleaf, hcount, hfound⟩
      refine ⟨⟨h₂.held.perm List.perm_middle List.perm_middle, h₂.ext, h₂.opens⟩,
        hsub.cons_cons s, ?_⟩
      rw [List.map_cons, List.forall_mem_cons]
      exact ⟨⟨hleaf, hcount⟩, hfound⟩

theorem forgetEmpty {leaves : List Nat} (h : Borrowed P e₀ e S (leaves ++ H))
    (hout : ∀ x ∈ leaves, Merge.admits e.cursors x = false →
      ∃ c, e.cursors[x]? = some c ∧ c.source.handedOut = false) :
    Borrowed P e₀ e S (leaves.filter (Merge.admits e.cursors) ++ H) := by
  induction leaves generalizing H with
  | nil => exact h
  | cons x rest ih =>
    rw [List.forall_mem_cons] at hout
    by_cases hx : Merge.admits e.cursors x
    · rw [List.filter_cons_of_pos hx]
      refine (ih (H := x :: H) ?_ hout.2).perm (.refl _) List.perm_middle
      exact h.perm (.refl _) List.perm_middle.symm
    · rw [List.filter_cons_of_neg hx]
      obtain ⟨c, hc, hc'⟩ := hout.1 (by simpa using hx)
      exact ih (h.forget hc hc') hout.2

theorem union (inputs : List (Option CursorId)) {leaves : List Nat}
    (h : Borrowed P e₀ e S (leaves ++ H)) (hinputs : inputs.filterMap id = leaves)
    (hleaf : ∀ x ∈ leaves, IsLeaf e.cursors x)
    (hout : ∀ x ∈ leaves, Merge.admits e.cursors x = false →
      ∃ c, e.cursors[x]? = some c ∧ c.source.handedOut = false) :
    Ensures (Merge.union inputs) e fun
      | .ok (some m), e' => Planned P e₀ e e' S (m :: (parts e'.cursors m ++ H)) []
      | .ok none, e' => Planned P e₀ e e' S H [] ∧ leaves.filter (Merge.admits e.cursors) = []
      | .error _, _ => False := by
  have h' := h.forgetEmpty hout
  have hsub : ∀ x ∈ leaves.filter (Merge.admits e.cursors), IsLeaf e.cursors x ∧ _ ≤ x :=
    fun x hx => ⟨hleaf x (List.mem_of_mem_filter hx),
      (h'.inner x (List.mem_append_right _ (List.mem_append_left _ hx))).1⟩
  rw [Merge.union, ensures_bind, Merge.ensures_addAll, hinputs]
  have hkept := Merge.foldl_takeIn_inputs e.cursors { connective := .or } leaves
  rw [List.nil_append] at hkept
  have hor := Merge.foldl_takeIn_connective e.cursors { connective := .or } leaves
  generalize leaves.foldl (Merge.takeIn e.cursors) { connective := .or } = m at hkept hor
  generalize leaves.filter (Merge.admits e.cursors) = kept at h' hsub hkept
  simp only [Merge.build, hkept]
  -- Nothing is no union, one cursor is its own, and more are merged under a new one.
  rcases kept with _ | ⟨x, _ | ⟨y, rest⟩⟩
  · exact ⟨.of_eq h' rfl, rfl⟩
  · have hparts : parts e.cursors x = [] := (hsub x (by simp)).1.parts_eq
    have hself : Borrowed P e₀ e S (x :: (parts e.cursors x ++ H)) := by
      rw [hparts]
      exact h'
    exact .of_eq hself rfl
  · simp only [ensures_map, Merge.combine, hor, hkept, ensures_openAs]
    have hnew : (e.cursors.push { extent := m.extent, source := .union (x :: y :: rest) })[
        e.cursors.size]? = some _ := Array.getElem?_push_size
    have hpart : parts _ e.cursors.size = x :: y :: rest := parts_of_getElem? hnew
    rw [hpart]
    have hinner : Inner e₀.cursors.size (e.cursors.push
        { extent := m.extent, source := .union (x :: y :: rest) }) e.cursors.size :=
      ⟨h.size_le, _, hnew, .inr ⟨_, rfl, nofun, fun k hk => ⟨(hsub k hk).2, (hsub k hk).1.lt_size,
        (hsub k hk).1.extends (.push _ _)⟩⟩⟩
    exact ⟨h'.pushInner rfl hinner, .push _ _, (Opens.refl _ _).push_of_ne nofun⟩

/-- Matches take over from the hands what they read and the segments they refer to. -/
theorem pushMatches {m : Nat} {segments : List Segment}
    (h : Borrowed P e₀ e (segments.map Segment.id ++ S) (m :: (parts e.cursors m ++ H)))
    (hP : P segments) (extent : Extent) :
    Planned P e₀ e
        { e with cursors := e.cursors.push { extent, source := .matches m segments } } S H
        [e.cursors.size] ∧
      Outer e₀.cursors.size (e.cursors.push { extent, source := .matches m segments })
        e.cursors.size := by
  generalize hcursor : ({ extent, source := .matches m segments } : Cursor) = new
  have hsource : new.source = .matches m segments := by rw [← hcursor]
  have hm : m < e.cursors.size := (h.inner m (by simp)).lt_size
  have hlent : new.lent = segments.map Segment.id := by
    rw [← hcursor]
    rfl
  have howned : owned (e.cursors.push new) new = m :: parts e.cursors m := by
    rw [← (Extends.push e.cursors new).parts hm, ← hcursor]
    rfl
  have hpush : Borrowed P e₀ { e with cursors := e.cursors.push new } S H := by
    refine Borrowed.push (c := new) (by rw [hlent, howned]; exact h) ?_ ?_
    · rw [hsource]
      rintro _ _ ⟨⟩
      exact ⟨hm, hP⟩
    · rw [hsource]
      rfl
  exact ⟨⟨hpush, .push _ _, (Opens.refl _ []).push new⟩,
    .matches h.size_le Array.getElem?_push_size hsource⟩

theorem openAs (c : Condition) (memtable : Option CursorId) {segments : List Segment}
    (h : Borrowed P e₀ e S (memtable.toList ++ H))
    (hmem : ∀ x ∈ memtable, IsMemory e.cursors x)
    (hP : ∀ found, found.Sublist segments → P found) :
    Ensures (Matches.openAs c memtable segments) e fun
      | .ok (some x), e' => Planned P e₀ e e' S H [x] ∧ Outer e₀.cursors.size e'.cursors x
      | .ok none, e' => Planned P e₀ e e' S H []
      | .error _, e' => Planned P e₀ e e' S H [] := by
  rw [Matches.openAs]
  refine (gather c segments h).bind ?_ ?_
  swap
  · intro f e₁ h₁
    cases memtable with
    | none => exact h₁
    | some x =>
      obtain ⟨d, hd, -, hout⟩ := (hmem x rfl).extends h₁.ext
      exact ⟨h₁.held.forget hd hout, h₁.ext, h₁.opens⟩
  rintro found e₁ ⟨h₁, hsub, hfound⟩
  have hheld : Borrowed P e₀ e₁ ((found.map Prod.snd).map Segment.id ++ S)
      ((found.map Prod.fst ++ memtable.toList) ++ H) := by
    rw [List.map_map, List.append_assoc]
    exact h₁.held
  have hmem' : ∀ x ∈ memtable.toList, IsMemory e₁.cursors x :=
    fun x hx => (hmem x (by simpa using hx)).extends h₁.ext
  refine (hheld.union (found.map (fun p => some p.1) ++ [memtable]) ?_ ?_ ?_).bind ?_ ?_
  · cases memtable <;> simp [List.filterMap_append, List.filterMap_map]
  · intro x hx
    rcases List.mem_append.1 hx with hx | hx
    · exact (hfound x hx).1
    · exact (hmem' x hx).isLeaf
  · intro x hx hno
    rcases List.mem_append.1 hx with hx | hx
    · rw [(hfound x hx).2] at hno
      cases hno
    · obtain ⟨d, hd, -, hout⟩ := hmem' x hx
      exact ⟨d, hd, hout⟩
  swap
  · intro f e₂ h₂
    exact h₂.elim
  rintro (_ | m) e₂ h₂
  · obtain ⟨h₂, hnone⟩ := h₂
    -- Cursors that were found have tokens, so a union of nothing was found nowhere.
    have hempty : found = [] := by
      rw [List.filter_append, List.append_eq_nil_iff, List.filter_eq_nil_iff] at hnone
      by_contra hne
      obtain ⟨p, hp⟩ := List.exists_mem_of_ne_nil _ hne
      exact hnone.1 p.1 (List.mem_map_of_mem hp) (hfound p.1 (List.mem_map_of_mem hp)).2
    rw [hempty, List.map_nil, List.map_nil, List.nil_append] at h₂
    exact h₁.trans h₂
  · simp only [ensures_state_bind, ensures_map, ensures_openAs]
    obtain ⟨h₃, houter⟩ := pushMatches h₂.held (hP _ hsub) (e₂.cursors.getD m .empty).extent
    exact ⟨h₁.trans (h₂.trans h₃), houter⟩

theorem searchMemtable (h : Borrowed P e₀ e S H) (id : IndexId) (c : Condition) :
    Ensures (Catalog.searchMemtable id c) e fun
      | .ok (some x), e' => Planned P e₀ e e' S (x :: H) [] ∧ IsMemory e'.cursors x
      | .ok none, e' => e' = e
      | .error _, e' => e' = e := by
  rw [Catalog.searchMemtable, ensures_get_bind]
  cases e.indexes[id]? with
  | none => rfl
  | some index =>
    simp only [ensures_settle_bind]
    cases index.memtable.search c with
    | error f => trivial
    | ok tokens =>
      simp only
      split
      · rfl
      · rw [ensures_map]
        refine (h.openTokens tokens none none).mono ?_
        rintro r e' ⟨rfl, rfl, h', -⟩
        exact ⟨h', _, Array.getElem?_push_size, rfl, rfl⟩

theorem openMatches (c : Candidate) (h : Borrowed P e₀ e S H)
    (hP : ∀ found, found.Sublist c.segments → P found) :
    Ensures (Session.openMatches c) e fun
      | .ok (some x), e' => Planned P e₀ e e' S H [x] ∧ Outer e₀.cursors.size e'.cursors x
      | .ok none, e' => Planned P e₀ e e' S H []
      | .error _, e' => Planned P e₀ e e' S H [] := by
  have hself : Planned P e₀ e e S H [] := .of_eq h rfl
  rw [Session.openMatches]
  cases c.condition.index with
  | none => exact openAs c.condition none h nofun hP
  | some index =>
    refine (h.searchMemtable index c.condition).bind ?_ ?_
    · rintro (_ | x) e₁ h₁
      · obtain rfl : e₁ = e := h₁
        exact openAs c.condition none h nofun hP
      · obtain ⟨h₁, hx⟩ := h₁
        refine (openAs c.condition (some x) h₁.held ?_ hP).mono ?_
        · rintro _ ⟨⟩
          exact hx
        · rintro (f | _ | y) e₂ h₂
          · exact h₁.trans h₂
          · exact h₁.trans h₂
          · exact ⟨h₁.trans h₂.1, h₂.2⟩
    · rintro f e₁ rfl
      exact hself

/-- Opening the matches of all conditions. -/
theorem openAll (cands : List Candidate) (h : Borrowed P e₀ e S H)
    (hP : ∀ c ∈ cands, ∀ found, found.Sublist c.segments → P found) :
    Ensures (Session.openAll cands) e fun
      | .ok ids, e' => Planned P e₀ e e' S H ids ∧ ∀ x ∈ ids, Outer e₀.cursors.size e'.cursors x
      | .error _, e' => Planned P e₀ e e' S H [] := by
  induction cands generalizing e with
  | nil => exact ⟨.of_eq h rfl, by simp⟩
  | cons c rest ih =>
    rw [List.forall_mem_cons] at hP
    rw [Session.openAll]
    refine (openMatches c h hP.1).bind ?_ (fun _ _ h => h)
    rintro (_ | x) e₁ h₁
    · refine (ih h₁.held hP.2).mono ?_
      rintro (f | ids) e₂ h₂
      · exact h₁.trans h₂
      · exact ⟨h₁.trans h₂.1, h₂.2⟩
    obtain ⟨h₁, hx⟩ := h₁
    refine Ensures.bind (R := fun
      | .ok ids, e' => Planned P e₀ e e' S H (x :: ids) ∧
          ∀ y ∈ x :: ids, Outer e₀.cursors.size e'.cursors y
      | .error _, e' => Planned P e₀ e e' S H [])
      ((ih h₁.held hP.2).orUndo ?_ ?_) (fun _ _ h => h) (fun _ _ h => h)
    · rintro ids e₂ ⟨h₂, hids⟩
      exact ⟨h₁.trans h₂, List.forall_mem_cons.2 ⟨hx.extends h₂.ext, hids⟩⟩
    · intro f e₂ h₂
      refine (closeOuter h₂.held (hx.extends h₂.ext) (Nat.lt_succ_self x)).mono ?_
      rintro _ e₃ ⟨h₃, hc, hcalls⟩
      have h₁₂ := h₁.trans h₂
      exact ⟨h₃, h₁₂.ext.trans hc.ext, (h₁₂.opens.close hc).drop hcalls⟩

end Borrowed
end SecondaryIndex.Loan
