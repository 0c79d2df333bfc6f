import SecondaryIndex.Proofs.Serving.Closing

namespace SecondaryIndex.Loan

open Act Cursor

/-- From the `n`-th on there are only lists of tokens. -/
structure Leaves (n : Nat) (cs : Array Cursor) : Prop where
  size : n ≤ cs.size
  tokens : ∀ (i : Nat) c, n ≤ i → cs[i]? = some c → c.source.isTokens = true

section

variable {n : Nat} {cs : Array Cursor}

theorem Leaves.start (cs : Array Cursor) : Leaves cs.size cs where
  size := le_rfl
  tokens _ _ hi hc := absurd (Array.getElem?_eq_some_iff.1 hc).1 (Nat.not_lt.2 hi)

theorem Leaves.closed (h : Leaves n cs) (x : Nat) : Leaves n (closed cs x) where
  size := h.size.trans (closes_closes cs x).size.ge
  tokens i c hi hc := by
    obtain ⟨d, hd, hs⟩ := source_of_closed hc
    exact hs ▸ h.tokens i d hi hd

theorem Leaves.push (h : Leaves n cs) {c : Cursor} (hc : c.source.isTokens = true) :
    Leaves n (cs.push c) where
  size := by
    rw [Array.size_push]
    exact h.size.trans (Nat.le_succ _)
  tokens i d hi hd := by
    rcases getElem?_push_cases hd with ⟨-, rfl⟩ | hd
    · exact hc
    · exact h.tokens i d hi hd

theorem keeps_releaseSegment (J : Array Cursor → Prop) (s : Segment) :
    Keeps (fun e => J e.cursors) s.release := by
  intro e he
  change J (s.release e).2.cursors
  rwa [Segment.cursors_release]

theorem leaves_closeWithin (n d x : Nat) :
    Keeps (fun e => Leaves n e.cursors) (closeWithin d x) := by
  induction d generalizing x with
  | zero => exact .pure _
  | succ d ih =>
    rw [closeWithin]
    refine .bind (fun e he => he) fun c => .bind (fun e he => he.closed x) fun _ => ?_
    split
    · exact .pure _
    · exact .throw _
    · exact .ite (.all ih _) (.pure _)
    · exact .ite (.all ih _) (.pure _)
    · refine .ite (.bind (ih _).attempt fun _ => .bind ?_ fun _ => .settle _) (.pure _)
      exact fun e he => (Segment.cursors_releaseAll _ e).mono fun _ e' h => h.2 ▸ he

theorem leaves_openTokens (n : Nat) (ts : List Token) (closeFault : Option Fault)
    (origin : Option Nat) :
    Keeps (fun e => Leaves n e.cursors) (Cursor.ofTokens ts closeFault origin).openAs :=
  fun _ he => he.push rfl

theorem leaves_search (n : Nat) (s : Segment) (c : Condition) :
    Keeps (fun e => Leaves n e.cursors) (s.search c) := by
  rw [Segment.search]
  refine .bind .get fun e => ?_
  split
  · exact .throw _
  · refine .ite (.throw _) (.bind (.settle _) fun found => ?_)
    cases found with
    | none => exact .pure _
    | some found => exact .map (leaves_openTokens n _ _ _)

theorem leaves_probe (n : Nat) (c : Condition) (s : Segment) :
    Keeps (fun e => Leaves n e.cursors) (Matches.probe c s) := by
  have hrelease := keeps_releaseSegment (Leaves n) s
  rw [Matches.probe]
  refine .bind (fun e he => ?_) fun _ => .ite (.pure _) ?_
  · rw [Ensures, Segment.retain_apply]
    split <;> exact he
  refine .bind (.orUndo (leaves_search n s c) hrelease) fun found => ?_
  cases found with
  | none => exact .bind hrelease fun _ => .pure _
  | some x =>
    refine .bind (fun e he => he) fun d => .ite ?_ (.pure _)
    exact .bind (.orUndo (leaves_closeWithin n _ x) hrelease) fun _ =>
      .bind hrelease fun _ => .pure _

theorem leaves_gather (n : Nat) (c : Condition) (segments : List Segment) :
    Keeps (fun e => Leaves n e.cursors) (Matches.gather c segments) := by
  induction segments with
  | nil => exact .pure _
  | cons s rest ih =>
    rw [Matches.gather]
    refine .bind (leaves_probe n c s) fun found => ?_
    cases found with
    | none => exact ih
    | some x =>
      refine .bind (.orUndo ih ?_) fun _ => .pure _
      exact .bind (leaves_closeWithin n _ x).quietly fun _ => keeps_releaseSegment _ s

theorem leaves_searchMemtable (n : Nat) (id : IndexId) (c : Condition) :
    Keeps (fun e => Leaves n e.cursors) (Catalog.searchMemtable id c) := by
  rw [Catalog.searchMemtable]
  refine .bind .get fun e => ?_
  split
  · exact .pure _
  · exact .bind (.settle _) fun _ => .ite (.pure _) (.map (leaves_openTokens n _ _ _))

end

/-- What planning has made of the cursors from the `n`-th on: the matches that it hands out, in the
order in which it opened them, are open, and any other is closed, if it is more than a list. -/
structure Left (n : Nat) (cs : Array Cursor) (ids : List Nat) : Prop where
  rising : ids.Pairwise (· < ·)
  fresh : ∀ x ∈ ids, n ≤ x ∧ IsOpen cs x
  ended : ∀ (x : Nat) c, n ≤ x → cs[x]? = some c →
    c.source.isTokens = true ∨ c.closes = 1 ∨ x ∈ ids.flatMap (span cs)

/-- The cursors below the `n`-th differ at most in their positions. -/
def Agree (n : Nat) (cs cs' : Array Cursor) : Prop :=
  ∀ i : Nat, i < n → cs'[i]?.map Cursor.still = cs[i]?.map Cursor.still

variable {P : List Segment → Prop} {e₀ e e' : Engine} {S S' H H' ids ids' : List Nat} {n x : Nat}
  {cs cs' : Array Cursor}

theorem Leaves.left (h : Leaves n cs) : Left n cs [] where
  rising := .nil
  fresh := nofun
  ended x c hx hc := .inl (h.tokens x c hx hc)

theorem Agree.getElem? (h : Agree n cs cs') {i : Nat} (hi : i < n) {c : Cursor}
    (hc : cs[i]? = some c) : ∃ c', cs'[i]? = some c' ∧ c'.still = c.still ∧
      c'.source.blank = c.source.blank ∧ c'.closes = c.closes := by
  have hmap := h i hi
  rw [hc, Option.map_some, Option.map_eq_some_iff] at hmap
  obtain ⟨c', hc', hstill⟩ := hmap
  have hcloses : c'.still.closes = c.still.closes := congrArg Cursor.closes hstill
  exact ⟨c', hc', hstill, congrArg Cursor.source hstill, hcloses⟩

theorem Agree.isOpen (h : Agree n cs cs') (hx : x < n) (hopen : IsOpen cs x) : IsOpen cs' x := by
  obtain ⟨c, m, segments, hc, hs, hzero⟩ := hopen
  obtain ⟨c', hc', -, hblank, hcloses⟩ := h.getElem? hx hc
  have hsource : c'.source = c.source := Source.eq_of_blank_eq hblank (by rw [hs]; rfl)
  exact ⟨c', m, segments, hc', hsource.trans hs, hcloses.trans hzero⟩

theorem Agree.span (h : Agree cs.size cs cs') (hx : ∀ c m segments, cs[x]? = some c →
    c.source = .matches m segments → m < cs.size) (hlt : x < cs.size) :
    span cs' x = span cs x := by
  have hc := Array.getElem?_eq_getElem hlt
  obtain ⟨c', hc', hstill, -⟩ := h.getElem? hlt hc
  rw [span_of_getElem? hc, span_of_getElem? hc', ← owned_still cs' c', hstill, owned_still]
  refine congrArg _ (owned_congr fun m segments hs => ?_)
  have hm := Array.getElem?_eq_getElem (hx _ m segments hc hs)
  obtain ⟨d', hd', -, hblank, -⟩ := h.getElem? (hx _ m segments hc hs) hm
  rw [parts_of_getElem? hm, parts_of_getElem? hd', ← Source.parts_blank, hblank,
    Source.parts_blank]

namespace Left

theorem trans (h : Left e₀.cursors.size e.cursors ids) (hb : Borrowed P e₀ e S H)
    (hb' : Borrowed P e e' S' H') (h' : Left e.cursors.size e'.cursors ids') :
    Left e₀.cursors.size e'.cursors (ids ++ ids') := by
  -- What the second part opens comes after the first, so the first still closes what it did.
  have hagree : Agree e.cursors.size e.cursors e'.cursors := hb'.older
  have hspan : ids.flatMap (span e'.cursors) = ids.flatMap (span e.cursors) := by
    refine List.flatMap_congr fun x hx => ?_
    obtain ⟨hle, hopen⟩ := h.fresh x hx
    refine hagree.span (fun c m segments hc hs => ?_) hopen.lt_size
    exact (hb.lenders x c m segments hle hc hs).1.trans hopen.lt_size
  refine ⟨List.pairwise_append.2 ⟨h.rising, h'.rising, fun x hx y hy => ?_⟩, fun x hx => ?_,
    fun x c hx hc => ?_⟩
  · exact (h.fresh x hx).2.lt_size.trans_le (h'.fresh y hy).1
  · rcases List.mem_append.1 hx with hx | hx
    · obtain ⟨hle, hopen⟩ := h.fresh x hx
      exact ⟨hle, hagree.isOpen hopen.lt_size hopen⟩
    · exact ⟨hb.size_le.trans (h'.fresh x hx).1, (h'.fresh x hx).2⟩
  · rw [List.flatMap_append, List.mem_append, hspan]
    by_cases hlt : x < e.cursors.size
    · have hd := Array.getElem?_eq_getElem hlt
      obtain ⟨c', hc', -, hblank, hcloses⟩ := hagree.getElem? hlt hd
      rw [hc] at hc'
      cases hc'
      rw [← Source.isTokens_blank, hblank, Source.isTokens_blank, hcloses]
      exact (h.ended x _ hx hd).imp_right (.imp_right .inl)
    · exact (h'.ended x c (Nat.not_lt.1 hlt) hc).imp_right (.imp_right .inr)

/-- Once the matches are given back, nothing that was opened is open. -/
theorem givenBack (h : Left n e.cursors ids) (hback : GivenBack ids e e') :
    Left n e'.cursors [] := by
  refine ⟨.nil, nofun, fun x c hx hc => ?_⟩
  rw [hback.closed, Option.map_eq_some_iff] at hc
  obtain ⟨d, hd, rfl⟩ := hc
  by_cases hmem : x ∈ ids.flatMap (span e.cursors)
  · obtain ⟨d', hd', hzero⟩ := hback.unclosed x hmem
    rw [hd] at hd'
    cases hd'
    rw [if_pos hmem]
    exact .inr (.inl (congrArg (· + 1) hzero))
  · rw [if_neg hmem]
    rcases h.ended x d hx hd with ht | hc | hin
    · exact .inl ht
    · exact .inr (.inl hc)
    · exact absurd hin hmem

end Left

theorem pushes_union (inputs : List (Option CursorId)) (e : Engine) :
    Ensures (Merge.union inputs) e fun
      | .ok (some m), e' => e' = e ∨ m = e.cursors.size ∧ ∃ extent children,
          e' = { e with cursors := e.cursors.push { extent, source := .union children } }
      | .ok none, e' => e' = e
      | .error _, _ => False := by
  rw [Merge.union, ensures_bind, Merge.ensures_addAll]
  have hor := Merge.foldl_takeIn_connective e.cursors { connective := .or } (inputs.filterMap id)
  generalize (inputs.filterMap id).foldl (Merge.takeIn e.cursors) { connective := .or } = m at hor
  simp only [Merge.build]
  split
  · rfl
  · exact .inl rfl
  · rw [ensures_map, Merge.combine, hor]
    exact .inr ⟨rfl, _, _, rfl⟩

/-- What goes into the matches is closed with them. -/
theorem left_openAs (c : Condition) (memtable : Option CursorId) (segments : List Segment)
    (h : Leaves n e.cursors) : Ensures (Matches.openAs c memtable segments) e fun
      | .ok (some x), e' => Left n e'.cursors [x]
      | .ok none, e' => Left n e'.cursors []
      | .error _, e' => Left n e'.cursors [] := by
  rw [Matches.openAs]
  refine (leaves_gather n c segments e h).bind ?_ fun _ _ h₁ => h₁.left
  intro found e₁ h₁
  refine (pushes_union (found.map (fun p => some p.1) ++ [memtable]) e₁).bind ?_
    fun _ _ h => h.elim
  rintro (_ | m) e₂ h₂
  · obtain rfl : e₂ = e₁ := h₂
    exact h₁.left
  simp only [ensures_state_bind, ensures_map, ensures_openAs]
  have hsize : n ≤ e₂.cursors.size := by
    rcases h₂ with rfl | ⟨-, _, _, rfl⟩
    · exact h₁.size
    · rw [Array.size_push]
      exact h₁.size.trans (Nat.le_succ _)
  -- At most one new cursor is no list: the union of what was gathered.
  have hread : ∀ (i : Nat) d, n ≤ i → e₂.cursors[i]? = some d →
      d.source.isTokens = true ∨ i = m := by
    intro i d hi hd
    rcases h₂ with rfl | ⟨rfl, _, _, rfl⟩
    · exact .inl (h₁.tokens i d hi hd)
    · rcases getElem?_push_cases hd with ⟨rfl, -⟩ | hd
      · exact .inr rfl
      · exact .inl (h₁.tokens i d hi hd)
  generalize hpush : e₂.cursors.push
    { extent := _, source := .matches m (found.map Prod.snd) } = cs
  have hnew : cs[e₂.cursors.size]? = some _ := hpush ▸ Array.getElem?_push_size
  refine ⟨List.pairwise_singleton _ _, ?_, fun i d hi hd => ?_⟩
  · intro x hx
    obtain rfl := List.mem_singleton.1 hx
    exact ⟨hsize, _, _, _, hnew, rfl, rfl⟩
  · rw [List.flatMap_singleton, span_of_getElem? hnew, owned]
    simp only [if_true, List.mem_cons]
    rw [← hpush] at hd
    rcases getElem?_push_cases hd with ⟨rfl, -⟩ | hd
    · exact .inr (.inr (.inl rfl))
    · rcases hread i d hi hd with ht | rfl
      · exact .inl ht
      · exact .inr (.inr (.inr (.inl rfl)))

theorem left_openMatches (c : Candidate) (e : Engine) :
    Ensures (Session.openMatches c) e fun
      | .ok (some x), e' => Left e.cursors.size e'.cursors [x]
      | .ok none, e' => Left e.cursors.size e'.cursors []
      | .error _, e' => Left e.cursors.size e'.cursors [] := by
  rw [Session.openMatches]
  cases c.condition.index with
  | none => exact left_openAs c.condition none c.segments (.start _)
  | some index =>
    refine (leaves_searchMemtable _ index c.condition e (.start _)).bind ?_ fun _ _ h => h.left
    exact fun memtable e₁ h₁ => left_openAs c.condition memtable c.segments h₁

theorem left_openAll (cands : List Candidate) (e : Engine) :
    Ensures (Session.openAll cands) e fun
      | .ok ids, e' => Left e.cursors.size e'.cursors ids
      | .error _, e' => Left e.cursors.size e'.cursors [] := by
  induction cands generalizing e with
  | nil => exact (Leaves.start _).left
  | cons c rest ih =>
    have hP : ∀ c : Candidate, ∀ found : List Segment, found.Sublist c.segments → True :=
      fun _ _ _ => trivial
    rw [Session.openAll]
    refine ((Borrowed.openMatches c (.refl _ e) (hP c)).and (left_openMatches c e)).bind ?_
      fun _ _ h => h.2
    rintro (_ | x) e₁ ⟨h₁, hleft₁⟩
    · refine ((Borrowed.openAll rest (.refl _ e₁) fun c _ => hP c).and (ih e₁)).mono ?_
      rintro (f | ids) e₂ ⟨h₂, hleft₂⟩
      · exact hleft₁.trans h₁.held h₂.held hleft₂
      · exact hleft₁.trans h₁.held h₂.1.held hleft₂
    obtain ⟨h₁, -⟩ := h₁
    -- The rest is opened as seen from `e₁`, and from `e`, for which `x` is open and can be closed.
    have hrest := ((Borrowed.openAll rest (.refl _ e₁) fun c _ => hP c).and
      (Borrowed.openAll rest h₁.held fun c _ => hP c)).and (ih e₁)
    refine Ensures.bind (R := fun
      | .ok ids, e' => Left e.cursors.size e'.cursors (x :: ids)
      | .error _, e' => Left e.cursors.size e'.cursors [])
      (hrest.orUndo ?_ ?_) (fun _ _ h => h) (fun _ _ h => h)
    · rintro ids e₂ ⟨⟨h₂, -⟩, hleft₂⟩
      exact hleft₁.trans h₁.held h₂.1.held hleft₂
    · rintro f e₂ ⟨⟨h₂, h₂'⟩, hleft₂⟩
      have hleft := hleft₁.trans h₁.held h₂.held hleft₂
      obtain ⟨hx, hopen⟩ := hleft.fresh x List.mem_cons_self
      refine (h₂'.held.closeOpen hx hopen).mono ?_
      exact fun _ e₃ h₃ => hleft.givenBack h₃.2

end SecondaryIndex.Loan
