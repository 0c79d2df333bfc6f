import SecondaryIndex.Proofs.Answers
import SecondaryIndex.Proofs.CloseTrees
import SecondaryIndex.Proofs.Serving.Faults
import SecondaryIndex.Proofs.Stream.Calls

namespace SecondaryIndex

open Act Cursor

/-- From the `n`-th cursor on, lists from segments have been closed once if they have no tokens. -/
def Sifted (n : Nat) (cs : Array Cursor) : Prop :=
  ∀ (x : Nat) c ts closeFault i, n ≤ x → cs[x]? = some c →
    c.source = .tokens ts closeFault (some i) → c.closes = if ts = [] then 1 else 0

namespace Sifted

variable {n n' : Nat} {cs cs' : Array Cursor}

theorem of_eq (h : cs' = cs) : Sifted cs.size cs' := by
  subst h
  intro x c _ _ _ hx hc
  exact absurd (Array.getElem?_eq_some_iff.1 hc).1 (Nat.not_lt.2 hx)

theorem trans (h : Sifted n cs) (hb : Beyond n' cs cs') (h' : Sifted n' cs') : Sifted n cs' := by
  intro x c ts closeFault i hx hc hs
  by_cases hlt : x < n'
  · rw [hb x hlt] at hc
    exact h x c ts closeFault i hx hc hs
  · exact h' x c ts closeFault i (Nat.not_lt.1 hlt) hc hs

theorem push (h : Sifted n cs) {c : Cursor} (hc : ∀ ts closeFault i,
    c.source = .tokens ts closeFault (some i) → c.closes = if ts = [] then 1 else 0) :
    Sifted n (cs.push c) := by
  intro x d ts closeFault i hx hd hs
  rcases Loan.getElem?_push_cases hd with ⟨-, rfl⟩ | hd
  · exact hc ts closeFault i hs
  · exact h x d ts closeFault i hx hd hs

end Sifted

theorem getElem?_closed_push {cs : Array Cursor} {closeFault : Option Fault} {origin : Option Nat}
    {x : Nat} {c : Cursor}
    (hc : (Loan.closed (cs.push (.ofTokens [] closeFault origin)) cs.size)[x]? = some c) :
    cs[x]? = some c ∨
      x = cs.size ∧ c = { Cursor.ofTokens [] closeFault origin with closes := 1 } := by
  rw [Loan.getElem?_closed, Array.getElem?_push] at hc
  by_cases hx : x = cs.size
  · subst hx
    simp only [if_true, Option.map_some, Option.some.injEq] at hc
    exact .inr ⟨rfl, hc.symm⟩
  · rw [if_neg (Ne.symm hx), if_neg hx] at hc
    exact .inl hc

theorem Sifted.closed_push (cs : Array Cursor) (closeFault : Option Fault) (origin : Option Nat) :
    Sifted cs.size (Loan.closed (cs.push (.ofTokens [] closeFault origin)) cs.size) := by
  intro x c ts fault i hx hc hs
  rcases getElem?_closed_push hc with hc | ⟨-, rfl⟩
  · exact absurd (Array.getElem?_eq_some_iff.1 hc).1 (Nat.not_lt.2 hx)
  · cases hs
    rfl

theorem Beyond.closed_push (cs : Array Cursor) (c : Cursor) :
    Beyond cs.size cs (Loan.closed (cs.push c) cs.size) := by
  intro i hi
  rw [Loan.getElem?_closed, if_neg (Nat.ne_of_gt hi)]
  exact Beyond.push cs c i hi

namespace Loan.Borrowed

variable {P : List Segment → Prop} {e₀ e : Engine} {S H : List Nat}

theorem handed_search (h : Borrowed P e₀ e S H) (s : Segment) (c : Condition)
    (hrefs : e.refs s ≠ 0) : Ensures (s.search c) e fun
      | .error _, _ => True
      | .ok none, e' => e' = e ∧ e₀.stored c s = []
      | .ok (some x), e' => x = e.cursors.size ∧ ∃ closeFault,
          e'.cursors = e.cursors.push (.ofTokens (e₀.stored c s) closeFault (some s.id)) := by
  obtain ⟨state, -, hstate, hne, -, -, -, hstored⟩ := h.exists_reader c hrefs
  simp only [Segment.search, ensures_get_bind, hstate, if_neg hne, ensures_settle_bind]
  rw [hstored, Reader.found]
  rcases state.reader.search c with f | _ | found
  · trivial
  · exact ⟨rfl, rfl⟩
  · exact ensures_map.2 ⟨rfl, found.closeFault, rfl⟩

theorem cursors_closeEmpty {s : Segment} {x : Nat} (h : Borrowed P e₀ e (s.id :: S) (x :: H))
    (hleaf : IsLeaf e.cursors x) :
    Ensures (do Act.orUndo (Cursor.close x) s.release; s.release; return (none : Option CursorId)) e
      fun
        | .error _, _ => True
        | .ok found, e' => found = none ∧ e'.cursors = closed e.cursors x := by
  have hclosed := (cursors_closeLeaf hleaf (Nat.succ_pos x)).and
    (closeLeaf h hleaf (Nat.succ_pos x))
  refine (hclosed.orUndo (Q := fun
    | .error _, _ => True
    | .ok (), e₁ => e₁.cursors = closed e.cursors x ∧ Borrowed P e₀ e₁ (s.id :: S) H)
    (fun _ _ h₁ => ⟨h₁.1, h₁.2.1⟩) fun _ _ _ => trivial).bind ?_ fun _ _ _ => trivial
  rintro _ e₁ ⟨hcs₁, h₁⟩
  refine (release h₁).bind_ok fun e₂ ⟨hcs₂, _⟩ => ?_
  exact ⟨rfl, hcs₂.trans hcs₁⟩

theorem handed_probe (h : Borrowed P e₀ e S H) (c : Condition) (s : Segment)
    (hsmall : (e₀.stored c s).length < 2 ^ 64) : Ensures (Matches.probe c s) e fun
      | .error _, _ => True
      | .ok none, e' => e₀.stored c s = [] ∧ Beyond e.cursors.size e.cursors e'.cursors ∧
          Sifted e.cursors.size e'.cursors
      | .ok (some x), e' => x = e.cursors.size ∧ e₀.stored c s ≠ [] ∧ ∃ closeFault,
          e'.cursors = e.cursors.push (.ofTokens (e₀.stored c s) closeFault (some s.id)) := by
  rw [Matches.probe]
  refine (h.retained s c).bind ?_ fun _ _ _ => trivial
  rintro b e₁ ⟨hcs₁, ⟨hb, hnone⟩ | ⟨hb, h₁, hrefs⟩⟩ <;> cases hb
  · simp only [Bool.not_false, if_true, ensures_pure]
    exact ⟨hnone, .of_eq hcs₁, .of_eq hcs₁⟩
  rw [← hcs₁]
  refine (((h₁.handed_search s c hrefs).and (h₁.search s c)).orUndo (Q := fun
    | .error _, _ => True
    | .ok none, e₂ => e₂ = e₁ ∧ e₀.stored c s = []
    | .ok (some x), e₂ => x = e₁.cursors.size ∧ (∃ closeFault, e₂.cursors =
        e₁.cursors.push (.ofTokens (e₀.stored c s) closeFault (some s.id))) ∧
          Planned P e₀ e₁ e₂ (s.id :: S) (x :: H) [] ∧ IsLeaf e₂.cursors x)
    ?_ fun _ _ _ => trivial).bind ?_ fun _ _ _ => trivial
  · rintro (_ | x) e₂ ⟨h₂, h₂'⟩
    · exact h₂
    · exact ⟨h₂.1, h₂.2, h₂'⟩
  rintro (_ | x) e₂ h₂
  · obtain ⟨rfl, hnone⟩ := h₂
    refine (release h₁).bind_ok fun e₃ ⟨hcs₃, _⟩ => ?_
    exact ⟨hnone, .of_eq hcs₃, .of_eq hcs₃⟩
  obtain ⟨rfl, ⟨closeFault, hpush⟩, h₂, hleaf⟩ := h₂
  have hcount : (Merge.extentOf e₂.cursors e₁.cursors.size).count =
      UInt64.ofNat (e₀.stored c s).length := by
    rw [hpush, Merge.extentOf_push]
    rfl
  simp only [ensures_state_bind]
  change Ensures (if (Merge.extentOf e₂.cursors e₁.cursors.size).count = 0 then _ else _) e₂ _
  by_cases hzero : (Merge.extentOf e₂.cursors e₁.cursors.size).count = 0
  · rw [if_pos hzero]
    -- The count has not wrapped around.
    have hnone : e₀.stored c s = [] := by
      have htoNat := congrArg UInt64.toNat (hcount.symm.trans hzero)
      rw [UInt64.toNat_ofNat', Nat.mod_eq_of_lt hsmall] at htoNat
      exact List.length_eq_zero_iff.1 htoNat
    refine (cursors_closeEmpty h₂.held hleaf).mono ?_
    rintro (f | _) e₃ h₃
    · trivial
    · obtain ⟨rfl, hcs₃⟩ := h₃
      rw [hpush, hnone] at hcs₃
      refine ⟨hnone, ?_, ?_⟩ <;> rw [hcs₃]
      · exact .closed_push _ _
      · exact .closed_push _ _ _
  · rw [if_neg hzero, ensures_pure]
    refine ⟨rfl, fun hnone => hzero ?_, closeFault, hpush⟩
    rw [hcount, hnone]
    rfl

end Loan.Borrowed

def Engine.contributing (e : Engine) (c : Condition) (segments : List Segment) : List Segment :=
  segments.filter fun s => e.stored c s ≠ []

/-- What searching some segments leaves open: one list for each that has tokens. -/
structure Searched (n : Nat) (e₀ e : Engine) (c : Condition) (segments : List Segment)
    (found : List (CursorId × Segment)) : Prop where
  segments_eq : found.map Prod.snd = e₀.contributing c segments
  sifted : Sifted n e.cursors
  inputs : ∃ ps, Inputs n e.cursors (found.map Prod.fst) ps ∧
    ps.map Part.tokens = (found.map Prod.snd).map (e₀.stored c)

namespace Searched

variable {n k : Nat} {e₀ e e' : Engine} {c : Condition} {s : Segment} {rest : List Segment}
  {found : List (CursorId × Segment)}

theorem skip (h : Searched k e₀ e' c rest found) (hnone : e₀.stored c s = []) (hle : n ≤ k)
    (hsifted : Sifted n e.cursors) (hb : Beyond k e.cursors e'.cursors) :
    Searched n e₀ e' c (s :: rest) found where
  segments_eq := by
    rw [h.segments_eq, Engine.contributing, Engine.contributing,
      List.filter_cons_of_neg (by simpa using hnone)]
  sifted := hsifted.trans hb h.sifted
  inputs := by
    obtain ⟨ps, hinputs, htokens⟩ := h.inputs
    exact ⟨ps, hinputs.mono hle, htokens⟩

theorem cons {closeFault : Option Fault}
    (h : Searched (e.cursors.size + 1) e₀ e' c rest found) (hsome : e₀.stored c s ≠ [])
    (hrising : Rising (e₀.stored c s)) (hb : Beyond (e.cursors.size + 1)
      (e.cursors.push (.ofTokens (e₀.stored c s) closeFault (some s.id))) e'.cursors) :
    Searched e.cursors.size e₀ e' c (s :: rest) ((e.cursors.size, s) :: found) where
  segments_eq := by
    rw [List.map_cons, h.segments_eq, Engine.contributing, Engine.contributing,
      List.filter_cons_of_pos (by simpa using hsome)]
  sifted := by
    refine Sifted.trans (Sifted.push (.of_eq rfl) ?_) hb h.sifted
    rintro ts fault i ⟨⟩
    rw [if_neg hsome]
    rfl
  inputs := by
    obtain ⟨ps, hinputs, htokens⟩ := h.inputs
    have hopened := Opened.ofTokens (Nat.le_refl e.cursors.size) hrising closeFault (some s.id)
    refine ⟨⟨[e.cursors.size], e₀.stored c s⟩ :: ps, .cons (hopened.frame ?_)
      (hinputs.mono (Nat.le_succ _)) ?_, ?_⟩
    · intro i hi
      obtain rfl := List.mem_singleton.1 hi
      exact hb _ (Nat.lt_succ_self _)
    · intro i hi hi'
      obtain rfl := List.mem_singleton.1 hi
      exact absurd (hinputs.mem_reads _ hi').1 (Nat.not_succ_le_self _)
    · rw [List.map_cons, List.map_cons, List.map_cons, htokens]

end Searched

theorem Loan.Borrowed.searched_gather {P : List Segment → Prop} {e₀ e : Engine} {S H : List Nat}
    (c : Condition) (segments : List Segment) (h : Borrowed P e₀ e S H)
    (hstored : ∀ s ∈ segments, Rising (e₀.stored c s) ∧ (e₀.stored c s).length < 2 ^ 64) :
    Ensures (Matches.gather c segments) e fun
      | .error _, _ => True
      | .ok found, e' => Beyond e.cursors.size e.cursors e'.cursors ∧
          Searched e.cursors.size e₀ e' c segments found := by
  induction segments generalizing e S H with
  | nil => exact ⟨.refl _ _, rfl, .of_eq rfl, [], .nil _ _, rfl⟩
  | cons s rest ih =>
    rw [List.forall_mem_cons] at hstored
    rw [Matches.gather]
    refine ((h.handed_probe c s hstored.1.2).and (h.probe c s)).bind ?_ fun _ _ _ => trivial
    rintro (_ | x) e₁ ⟨h₁, h₁'⟩
    · obtain ⟨hnone, hb₁, hsifted⟩ := h₁
      have hle := hb₁.le_size (Nat.le_refl _)
      refine (ih h₁'.held hstored.2).mono ?_
      rintro (f | found) e₂ h₂
      · trivial
      · exact ⟨hb₁.trans (h₂.1.mono hle), h₂.2.skip hnone hle hsifted h₂.1⟩
    obtain ⟨rfl, hsome, closeFault, hpush⟩ := h₁
    have hsize : e₁.cursors.size = e.cursors.size + 1 := by rw [hpush, Array.size_push]
    refine ((ih h₁'.1.held hstored.2).orUndo_of fun _ _ _ _ => trivial).bind ?_
      fun _ _ _ => trivial
    rintro found e₂ ⟨hb₂, hsearched⟩
    rw [hsize] at hb₂ hsearched
    have hb₁ : Beyond e.cursors.size e.cursors e₁.cursors := hpush ▸ .push _ _
    rw [hpush] at hb₂
    exact ⟨(hpush ▸ hb₁).trans (hb₂.mono (Nat.le_succ _)), hsearched.cons hsome hstored.1.1 hb₂⟩

/-- A cursor that is merged as a whole: what comes from it, and what is closed with it. -/
structure Whole (cs : Array Cursor) (y : CursorId) (ts : List Token) (t : CloseTree) : Prop where
  stream : ∃ reads, Opened 0 cs y ⟨reads, ts⟩
  counted : ts ≠ [] → Merge.admits cs y
  root : t.root = y
  stands : t.Stands cs
  once : t.members.Nodup
  /-- No segment is released with it. -/
  unlent : t.segments = []

/-- What a memtable brings along: these tokens, or nothing. -/
def Supplies (cs : Array Cursor) : Option CursorId → List Token → Prop
  | none, ts => ts = []
  | some y, ts => ∃ t, Whole cs y ts t

/-- Cursors that are merged, with the trees that are closed with them. -/
structure Row (cs : Array Cursor) (ids : List CursorId) (us : List CloseTree) : Prop where
  roots : us.map CloseTree.root = ids
  stand : CloseTree.AllStand cs us
  once : (CloseTree.allMembers us).Nodup
  unlent : CloseTree.allSegments us = []

namespace Row

variable {cs : Array Cursor} {ids : List CursorId} {us : List CloseTree}

theorem leaves (h : ∀ x ∈ ids, Loan.IsLeaf cs x) (hnodup : ids.Nodup) :
    Row cs ids (ids.map .leaf) where
  roots := by
    rw [List.map_map]
    exact List.map_id _
  stand := by
    refine CloseTree.allStand_iff.2 fun u hu => ?_
    obtain ⟨x, hx, rfl⟩ := List.mem_map.1 hu
    obtain ⟨c, hc, htokens⟩ := h x hx
    exact ⟨c, hc, .inl htokens⟩
  once := by
    rw [CloseTree.allMembers_leaves]
    exact hnodup
  unlent := by
    rw [CloseTree.allSegments_eq, List.flatMap_eq_nil_iff]
    intro u hu
    obtain ⟨x, -, rfl⟩ := List.mem_map.1 hu
    rfl

theorem concat {t : CloseTree} {y : CursorId} (h : Row cs ids us) (hroot : t.root = y)
    (hstands : t.Stands cs) (honce : t.members.Nodup) (hunlent : t.segments = [])
    (hdisjoint : ∀ x ∈ t.members, x ∉ CloseTree.allMembers us) :
    Row cs (ids ++ [y]) (us ++ [t]) where
  roots := by rw [List.map_append, h.roots, List.map_singleton, hroot]
  stand := by
    rw [CloseTree.allStand_iff, List.forall_mem_append, List.forall_mem_singleton]
    exact ⟨CloseTree.allStand_iff.1 h.stand, hstands⟩
  once := by
    rw [CloseTree.allMembers_eq, List.flatMap_append, ← CloseTree.allMembers_eq,
      List.flatMap_singleton, List.nodup_append]
    refine ⟨h.once, honce, ?_⟩
    rintro x hx _ hx' rfl
    exact hdisjoint x hx' hx
  unlent := by
    rw [CloseTree.allSegments_eq, List.flatMap_append, ← CloseTree.allSegments_eq, h.unlent,
      List.flatMap_singleton, hunlent]
    rfl

theorem mem_allMembers (h : Row cs ids us) (x : CursorId) (hx : x ∈ ids) :
    x ∈ CloseTree.allMembers us := by
  rw [← h.roots] at hx
  obtain ⟨t, ht, rfl⟩ := List.mem_map.1 hx
  exact CloseTree.mem_allMembers.2 ⟨t, ht, t.root_mem_members⟩

end Row

/-- What the union of a row leaves: the tree with which it is closed. -/
structure Joined (e e' : Engine) (kept : List CursorId) (m : CursorId) (t : CloseTree) : Prop where
  root : t.root = m
  stands : t.Stands e'.cursors
  once : t.members.Nodup
  unlent : t.segments = []
  kept : ∀ x ∈ kept, x ∈ t.members
  same : e' = { e with cursors := e'.cursors }
  beyond : Beyond e.cursors.size e.cursors e'.cursors
  /-- No list of tokens is opened. -/
  lists : ∀ (y : CursorId) c, e'.cursors[y]? = some c → c.source.isTokens → e.cursors[y]? = some c

theorem Row.union {e : Engine} {kept : List CursorId} {us : List CloseTree}
    (h : Row e.cursors kept us) {inputs : List (Option CursorId)}
    (hkept : (inputs.filterMap id).filter (Merge.admits e.cursors) = kept) :
    Ensures (Merge.union inputs) e fun
      | .error _, _ => False
      | .ok none, e' => kept = [] ∧ e' = e
      | .ok (some m), e' => kept ≠ [] ∧ ∃ t, Joined e e' kept m t := by
  rw [Merge.union, ensures_bind, Merge.ensures_addAll]
  have hinputs := Merge.foldl_takeIn_inputs e.cursors { connective := .or } (inputs.filterMap id)
  have hor := Merge.foldl_takeIn_connective e.cursors { connective := .or } (inputs.filterMap id)
  have hmember := h.mem_allMembers
  rw [hkept, List.nil_append, ← h.roots] at hinputs
  generalize (inputs.filterMap id).foldl (Merge.takeIn e.cursors) { connective := .or } = m
    at hinputs hor
  obtain ⟨hroots, hstand, honce, hunlent⟩ := h
  subst hroots
  simp only [Merge.build, hinputs]
  -- Nothing is no union, one cursor is its own, and more are merged under a new one.
  rcases us with _ | ⟨t, _ | ⟨u, rest⟩⟩
  · exact ⟨rfl, rfl⟩
  · rw [CloseTree.allMembers_eq, List.flatMap_singleton] at honce
    rw [CloseTree.allSegments_eq, List.flatMap_singleton] at hunlent
    exact ⟨List.cons_ne_nil _ _, t, rfl, hstand.1, honce, hunlent,
      List.forall_mem_singleton.2 t.root_mem_members, rfl, .refl _ _, fun _ _ h _ => h⟩
  · have hlt : ∀ x ∈ CloseTree.allMembers (t :: u :: rest), x < e.cursors.size := by
      intro x hx
      obtain ⟨v, hv, hx⟩ := CloseTree.mem_allMembers.1 hx
      exact (CloseTree.allStand_iff.1 hstand v hv).lt_size x hx
    simp only [Merge.combine, hor, hinputs]
    refine ⟨List.cons_ne_nil _ _, .merge e.cursors.size (t :: u :: rest), rfl,
      ⟨⟨_, Array.getElem?_push_size, rfl, .inl rfl⟩, fun v hv => ?_,
        CloseTree.allStand_iff.2 fun v hv => ?_⟩,
      List.nodup_cons.2 ⟨fun hx => Nat.lt_irrefl _ (hlt _ hx), honce⟩, hunlent,
      fun x hx => List.mem_cons_of_mem _ (hmember x hx), rfl, .push _ _, fun y d hd hs => ?_⟩
    · exact hlt _ (CloseTree.mem_allMembers.2 ⟨v, hv, v.root_mem_members⟩)
    · refine (CloseTree.allStand_iff.1 hstand v hv).congr fun x hx => ?_
      exact Beyond.push _ _ x (hlt x (CloseTree.mem_allMembers.2 ⟨v, hv, hx⟩))
    · rcases Loan.getElem?_push_cases hd with ⟨-, rfl⟩ | hd
      · cases hs
      · exact hd

theorem Inputs.nodup {n : Nat} {cs : Array Cursor} {ids : List Nat} {ps : List Part}
    (h : Inputs n cs ids ps) : ids.Nodup := by
  obtain ⟨heach, hdistinct⟩ := h
  induction heach with
  | nil => exact .nil
  | cons hx hrest ih =>
    rw [Part.allReads, List.flatMap_cons, List.nodup_append] at hdistinct
    refine List.nodup_cons.2 ⟨fun hmem => ?_, ih hdistinct.2.1⟩
    obtain ⟨p, hp, hxp⟩ := exists_left hrest.flip _ hmem
    exact hdistinct.2.2 _ hx.streams.mem_reads _
      (Part.mem_allReads.2 ⟨p, hp, hxp.streams.mem_reads⟩) rfl

theorem Loan.Borrowed.restored {P : List Segment → Prop} {e₀ e : Engine} {H : List Nat}
    {kept : List Segment} (h : Borrowed P e₀ e (kept.map Segment.id) H)
    (hclosed : ∀ x, e₀.cursors.size ≤ x → ¬ IsOpen e.cursors x) :
    (Segment.releaseAll kept e).2 = { e₀ with cursors := e.cursors } := by
  rw [← List.append_nil (kept.map Segment.id)] at h
  obtain ⟨-, hcursors, hback⟩ := h.releaseAll
  have hsegments : (Segment.releaseAll kept e).2.segments = e₀.segments := by
    apply Array.ext_getElem?
    intro i
    rw [hback.segments_eq (hcursors ▸ hclosed)]
    exact Option.map_id'
  rw [hback.untouched.eq, hsegments, hcursors]

theorem Searched.mem_tokens {n : Nat} {e₀ e : Engine} {c : Condition} {segments : List Segment}
    {found : List (CursorId × Segment)} (h : Searched n e₀ e c segments found) {ps : List Part}
    (hps : ps.map Part.tokens = (found.map Prod.snd).map (e₀.stored c)) {token : Token} :
    (∃ p ∈ ps, token ∈ p.tokens) ↔ token ∈ segments.flatMap (e₀.stored c) := by
  have hlists : (∃ p ∈ ps, token ∈ p.tokens) ↔ ∃ ts ∈ ps.map Part.tokens, token ∈ ts := by simp
  rw [hlists, hps, h.segments_eq, Engine.contributing, List.mem_flatMap]
  constructor
  · rintro ⟨ts, hts, htoken⟩
    obtain ⟨s, hs, rfl⟩ := List.mem_map.1 hts
    exact ⟨s, List.mem_of_mem_filter hs, htoken⟩
  · rintro ⟨s, hs, htoken⟩
    refine ⟨_, List.mem_map_of_mem (List.mem_filter.2 ⟨hs, ?_⟩), htoken⟩
    exact decide_eq_true (List.ne_nil_of_mem htoken)

/-- The cursors that are merged: all of the memtable and of the segments that count. -/
def Matches.merged (cs : Array Cursor) (found : List (CursorId × Segment))
    (memtable : Option CursorId) : List CursorId :=
  (found.map Prod.fst ++ memtable.toList).filter (Merge.admits cs)

/-- All segments have been searched, and what they gave is in hand. -/
structure Harvested (e₀ e : Engine) (c : Condition) (segments : List Segment)
    (found : List (CursorId × Segment)) (memtable : Option CursorId) (memory : List Token) :
    Prop where
  searched : Searched e₀.cursors.size e₀ e c segments found
  held : Loan.Borrowed (fun _ => True) e₀ e ((found.map Prod.snd).map Segment.id)
    (found.map Prod.fst)
  closed : ∀ x, e₀.cursors.size ≤ x → ¬ Loan.IsOpen e.cursors x
  beyond : Beyond e₀.cursors.size e₀.cursors e.cursors
  leaf : ∀ x ∈ found.map Prod.fst, Loan.IsLeaf e.cursors x
  admits : ∀ x ∈ found.map Prod.fst, Merge.admits e.cursors x
  supplies : Supplies e₀.cursors memtable memory

namespace Harvested

variable {e₀ e : Engine} {c : Condition} {segments : List Segment}
  {found : List (CursorId × Segment)} {memtable : Option CursorId} {memory : List Token}

theorem admits_memtable (h : Harvested e₀ e c segments found memtable memory) {y : CursorId}
    (hy : y ∈ memtable) : Merge.admits e.cursors y = Merge.admits e₀.cursors y := by
  cases hy
  obtain ⟨t, hwhole⟩ := h.supplies
  obtain ⟨reads, hstream⟩ := hwhole.stream
  exact Merge.admits_congr (h.beyond y hstream.lt_size)

theorem merged_eq_nil (h : Harvested e₀ e c segments found memtable memory) :
    Matches.merged e.cursors found memtable = [] ↔
      e₀.contributing c segments = [] ∧ ∀ y ∈ memtable, Merge.admits e₀.cursors y = false := by
  rw [Matches.merged, List.filter_append, List.append_eq_nil_iff, List.filter_eq_self.2 h.admits,
    ← h.searched.segments_eq, List.map_eq_nil_iff, List.map_eq_nil_iff, List.filter_eq_nil_iff]
  simp only [Option.mem_toList, Bool.not_eq_true]
  exact and_congr_right fun _ => forall₂_congr fun y hy => by rw [h.admits_memtable hy]

theorem streams (h : Harvested e₀ e c segments found memtable memory) :
    ∃ ps, Inputs 0 e.cursors (found.map Prod.fst ++ memtable.toList) ps ∧
      Counts e.cursors (found.map Prod.fst ++ memtable.toList) ps ∧
      ∀ token, (∃ p ∈ ps, token ∈ p.tokens) ↔
        token ∈ memory ++ segments.flatMap (e₀.stored c) := by
  obtain ⟨ps, hinputs, htokens⟩ := h.searched.inputs
  have hcounts : Counts e.cursors (found.map Prod.fst) ps :=
    forall₂_imp_mem hinputs.each fun x hx _ _ _ _ => h.admits x hx
  cases memtable with
  | none =>
    obtain rfl : memory = [] := h.supplies
    rw [Option.toList_none, List.append_nil]
    exact ⟨ps, hinputs.mono (Nat.zero_le _), hcounts, fun _ => h.searched.mem_tokens htokens⟩
  | some y =>
    obtain ⟨t, ⟨reads, hstream⟩, hcounted, -⟩ := h.supplies
    refine ⟨ps ++ [⟨reads, memory⟩],
      (hinputs.mono (Nat.zero_le _)).concat (hstream.beyond h.beyond) ?_,
      List.rel_append hcounts (.cons (fun hne => ?_) .nil), fun token => ?_⟩
    · exact fun i hi hi' => Nat.not_le.2 (hstream.streams.lt_size i hi') (hinputs.mem_reads i hi).1
    · rw [h.admits_memtable rfl]
      exact hcounted hne
    · rw [List.mem_append, ← h.searched.mem_tokens htokens, or_comm]
      simp only [List.mem_append, List.mem_singleton, or_and_right, exists_or, exists_eq_left]

theorem row (h : Harvested e₀ e c segments found memtable memory) :
    ∃ us, Row e.cursors (Matches.merged e.cursors found memtable) us := by
  obtain ⟨ps, hinputs, -⟩ := h.searched.inputs
  have hnew : ∀ x ∈ found.map Prod.fst, e₀.cursors.size ≤ x := by
    intro x hx
    obtain ⟨p, hp, hxp⟩ := exists_left hinputs.each.flip x hx
    exact hxp.new x hxp.streams.mem_reads
  have hleaves := Row.leaves h.leaf hinputs.nodup
  have hsupplies := h.supplies
  rw [Matches.merged, List.filter_append, List.filter_eq_self.2 h.admits]
  cases memtable with
  | none => exact ⟨_, by simpa using hleaves⟩
  | some y =>
    by_cases hy : Merge.admits e.cursors y
    · obtain ⟨t, hwhole⟩ := hsupplies
      rw [Option.toList_some, List.filter_cons_of_pos hy]
      refine ⟨_, hleaves.concat hwhole.root (hwhole.stands.congr fun x hx => ?_) hwhole.once
        hwhole.unlent fun x hx hx' => ?_⟩
      · exact h.beyond x (hwhole.stands.lt_size x hx)
      · refine Nat.not_le.2 (hwhole.stands.lt_size x hx) (hnew x ?_)
        rwa [CloseTree.allMembers_leaves] at hx'
    · rw [Option.toList_some, List.filter_cons_of_neg hy]
      exact ⟨_, by simpa using hleaves⟩

theorem mem_found (h : Harvested e₀ e c segments found memtable memory) {y : CursorId}
    {d : Cursor} {ts : List Token} {closeFault : Option Fault} {i : Nat}
    (hle : e₀.cursors.size ≤ y) (hd : e.cursors[y]? = some d)
    (hs : d.source = .tokens ts closeFault (some i)) (hne : ts ≠ []) :
    y ∈ found.map Prod.fst := by
  have honce := h.held.once y hle (.inr ⟨d, hd, by rw [hs]; rfl⟩)
  rw [(Loan.lentFrom_eq_nil h.closed).2, List.nil_append, Loan.closes_of_getElem? hd,
    h.searched.sifted y d ts closeFault i hle hd hs, if_neg hne, Nat.zero_add] at honce
  exact List.count_pos_iff.1 (honce ▸ Nat.one_pos)

/-- The references of all that was found can be given back. -/
theorem restored (h : Harvested e₀ e c segments found memtable memory) :
    (Segment.releaseAll (found.map Prod.snd) e).2 = { e₀ with cursors := e.cursors } :=
  h.held.restored h.closed

end Harvested

namespace Matches

/-- Whether a cursor is merged: the memtable's if it counts any tokens, and each list from a segment
that has some. -/
def Merges (cs cs' : Array Cursor) (memtable : Option CursorId) (y : CursorId) : Prop :=
  y ∈ memtable ∧ Merge.admits cs y ∨
    cs.size ≤ y ∧ ∃ c ts closeFault i, cs'[y]? = some c ∧
      c.source = .tokens ts closeFault (some i) ∧ ts ≠ []

structure Acquired (e : Engine) (c : Condition) (memtable : Option CursorId) (memory : List Token)
    (segments : List Segment) (x : CursorId) (e' : Engine) : Prop where
  some_ : e.contributing c segments ≠ [] ∨ ∃ y ∈ memtable, Merge.admits e.cursors y
  untouched : Loan.Untouched e e'
  /-- One reference for each segment that has tokens. -/
  references : ∀ i : Nat, e'.segments[i]? = e.segments[i]?.map fun state => { state with
    refs := state.refs + if i ∈ (e.contributing c segments).map Segment.id then 1 else 0 }
  sifted : Sifted e.cursors.size e'.cursors
  answers : ∀ calls, Call.answers (Call.on x) calls e'.cursors =
    Call.answers Call.onList calls (TokenSet.ofList (memory ++ segments.flatMap (e.stored c)))
  /-- Wherever the cursors have moved, any calls of close and the one at the end of its life
  together close what is merged once and give back all references. -/
  back : ∃ t : CloseTree, t.root = x ∧ t.members.Nodup ∧
    (∀ y, Merges e.cursors e'.cursors memtable y → y ∈ t.members) ∧
    ∀ cursors, Loan.Stills e'.cursors cursors → ∀ n,
      (closeEach (List.replicate n x) { e' with cursors }).1 =
          (CloseTree.report e'.cursors t.leaves :: List.replicate n (.ok ())).take n ∧
        (closeQuietly [x] (closeEach (List.replicate n x) { e' with cursors }).2).2 =
          { e with cursors := Loan.closedAll cursors (t.members ++ List.replicate n x) }

end Matches

theorem Joined.back {e e₁ e₂ : Engine} {kept : List CursorId} {m : CursorId} {t : CloseTree}
    {segments : List Segment} (h : Joined e₁ e₂ kept m t) (extent : Extent)
    (hback : (Segment.releaseAll segments e₁).2 = { e with cursors := e₁.cursors })
    {cursors : Array Cursor} (hs : Loan.Stills
      (e₂.cursors.push { extent, source := .matches m segments }) cursors) (n : Nat) :
    (closeEach (List.replicate n e₂.cursors.size) { e₂ with cursors }).1 =
        (CloseTree.report (e₂.cursors.push { extent, source := .matches m segments }) t.leaves ::
          List.replicate n (.ok ())).take n ∧
      (closeQuietly [e₂.cursors.size]
          (closeEach (List.replicate n e₂.cursors.size) { e₂ with cursors }).2).2 =
        { e with
          cursors := Loan.closedAll cursors
            (e₂.cursors.size :: t.members ++ List.replicate n e₂.cursors.size) } := by
  have hlt := h.stands.lt_size
  have hnew : (e₂.cursors.push { extent, source := .matches m segments })[e₂.cursors.size]? =
      some _ := Array.getElem?_push_size
  have hstands : (CloseTree.matches e₂.cursors.size t segments).Stands
      (e₂.cursors.push { extent, source := .matches m segments }) :=
    ⟨⟨_, hnew, rfl, by rw [h.root]⟩, hlt _ t.root_mem_members,
      h.stands.congr fun x hx => Beyond.push _ _ x (hlt x hx)⟩
  have honce : (CloseTree.matches e₂.cursors.size t segments).members.Nodup :=
    List.nodup_cons.2 ⟨fun hx => Nat.lt_irrefl _ (hlt _ hx), h.once⟩
  obtain ⟨d, hd, hblank, -⟩ := hs.of_getElem? hnew
  have htokens : d.source.isTokens = false := by
    rw [← Source.isTokens_blank, hblank]
    rfl
  have hsegments : (CloseTree.matches e₂.cursors.size t segments).segments = segments := by
    rw [CloseTree.segments, h.unlent, List.nil_append]
  have hdown : ∀ ids, ({ e₂ with cursors } : Engine).closedDown ids segments =
      { e with cursors := Loan.closedAll cursors ids } := by
    intro ids
    have hreleased := Segment.releaseAll_withCursors segments e₁ cursors
    rw [hback] at hreleased
    have hsame : ({ e₂ with cursors } : Engine) = { e₁ with cursors } :=
      congrArg (fun e : Engine => { e with cursors }) h.same
    rw [hsame, Engine.closedDown, hreleased]
  have hclose := (CloseTree.closed_repeatedly (e := { e₂ with cursors }) (hstands.stills hs) honce
    hd htokens n).1
  rw [hsegments, hdown, CloseTree.report_stills hs] at hclose
  exact closeEach_last hclose

theorem Joined.getElem?_push {e e' : Engine} {kept : List CursorId} {m : CursorId} {t : CloseTree}
    (h : Joined e e' kept m t) {extent : Extent} {segments : List Segment} {y : CursorId}
    {c : Cursor}
    (hc : (e'.cursors.push { extent, source := .matches m segments })[y]? = some c)
    (htokens : c.source.isTokens) : e.cursors[y]? = some c := by
  rcases Loan.getElem?_push_cases hc with ⟨-, rfl⟩ | hc
  · cases htokens
  · exact h.lists y c hc htokens

namespace Harvested

variable {e₀ e e' : Engine} {c : Condition} {segments : List Segment}
  {found : List (CursorId × Segment)} {memtable : Option CursorId} {memory : List Token}
  {m : CursorId} {t : CloseTree}

/-- All that is merged is closed with the matches. -/
theorem mem_of_merges (h : Harvested e₀ e c segments found memtable memory) {extent : Extent}
    (hjoined : Joined e e' (Matches.merged e.cursors found memtable) m t) {y : CursorId}
    (hy : Matches.Merges e₀.cursors
      (e'.cursors.push { extent, source := .matches m (found.map Prod.snd) }) memtable y) :
    y ∈ t.members := by
  refine hjoined.kept y (List.mem_filter.2 ?_)
  rcases hy with ⟨hy, hadmitted⟩ | ⟨hle, d, ts, closeFault, i, hd, hs, hne⟩
  · rw [h.admits_memtable hy]
    exact ⟨List.mem_append_right _ (Option.mem_toList.2 hy), hadmitted⟩
  · have hd₁ := hjoined.getElem?_push hd (by rw [hs]; rfl)
    have hfound := h.mem_found hle hd₁ hs hne
    exact ⟨List.mem_append_left _ hfound, h.admits y hfound⟩

theorem acquired (h : Harvested e₀ e c segments found memtable memory)
    (hnodup : (segments.map Segment.id).Nodup) (hne : Matches.merged e.cursors found memtable ≠ [])
    (hjoined : Joined e e' (Matches.merged e.cursors found memtable) m t) {q : Part}
    (hopened : Opened 0 e'.cursors m q)
    (hmem : ∀ token, token ∈ q.tokens ↔ token ∈ memory ++ segments.flatMap (e₀.stored c)) :
    Matches.Acquired e₀ c memtable memory segments e'.cursors.size
      { e' with
        cursors := e'.cursors.push
          { extent := Merge.extentOf e'.cursors m, source := .matches m (found.map Prod.snd) } }
    where
  some_ := by
    by_contra hnone
    rw [not_or] at hnone
    refine hne (h.merged_eq_nil.2 ⟨not_not.1 hnone.1, fun y hy => ?_⟩)
    exact Bool.eq_false_iff.2 fun hy' => hnone.2 ⟨y, hy, hy'⟩
  untouched := by
    have huntouched := h.held.untouched
    rw [hjoined.same]
    exact ⟨huntouched.1, huntouched.2, huntouched.3, huntouched.4, huntouched.5, huntouched.6,
      huntouched.7⟩
  references i := by
    have hsegments : e'.segments = e.segments := by rw [hjoined.same]
    have hcontributing : ((e₀.contributing c segments).map Segment.id).Nodup :=
      hnodup.sublist (List.filter_sublist.map _)
    rw [hsegments, h.held.segments_eq h.closed, h.searched.segments_eq, hcontributing.count]
  sifted y d ts closeFault i hle hd hs :=
    h.searched.sifted y d ts closeFault i hle (hjoined.getElem?_push hd (by rw [hs]; rfl)) hs
  answers calls := by
    rw [← hopened.streams.rising.ext (TokenSet.pairwise_ofList _) fun token => by
      rw [TokenSet.mem_ofList, hmem]]
    exact (hopened.matches (Nat.zero_le _) (found.map Prod.snd)).streams.answers_eq calls
  back := by
    refine ⟨.matches e'.cursors.size t (found.map Prod.snd), rfl, List.nodup_cons.2
      ⟨fun hx => Nat.lt_irrefl _ (hjoined.stands.lt_size _ hx), hjoined.once⟩, fun y hy => ?_,
      fun cursors hs n => hjoined.back _ h.restored hs n⟩
    exact List.mem_cons_of_mem _ (h.mem_of_merges hjoined hy)

end Harvested

namespace Matches

/-- If matches are opened, they hold what they found, and closing them gives it back. Nothing is
opened if there are no tokens, or if a search or the close of an empty list fails; then all has been
given back already. A released segment has nothing, and what the others have is in order and can be
counted. -/
theorem openAs_acquires {e : Engine} {c : Condition} {memtable : Option CursorId}
    {memory : List Token} {segments : List Segment} (hnodup : (segments.map Segment.id).Nodup)
    (hstored : ∀ s ∈ segments, Rising (e.stored c s) ∧ (e.stored c s).length < 2 ^ 64)
    (hmemory : Supplies e.cursors memtable memory) :
    Ensures (openAs c memtable segments) e fun
      | .error f, e' => c.Faults e segments f ∧ e' = { e with cursors := e'.cursors } ∧
          ∀ y d, e.cursors.size ≤ y → e'.cursors[y]? = some d → d.source.handedOut → d.closes = 1
      | .ok none, e' => e.contributing c segments = [] ∧
          (∀ y ∈ memtable, Merge.admits e.cursors y = false) ∧
            e' = { e with cursors := e'.cursors } ∧ Sifted e.cursors.size e'.cursors
      | .ok (some x), e' => Acquired e c memtable memory segments x e' := by
  have hself : Loan.Borrowed (fun _ => True) e e [] [] := .refl _ e
  rw [openAs]
  have hgather := (hself.gather c segments).and (hself.searched_gather c segments hstored)
  refine (hgather.and (hself.fails_gather c segments)).bind ?_ ?_
  swap
  · rintro f e₁ ⟨⟨h₁, -⟩, hfault⟩
    have hclosed : ∀ x, e.cursors.size ≤ x → ¬ Loan.IsOpen e₁.cursors x :=
      fun x hle hopen => by cases h₁.opens x hle hopen
    have hrestored : (Segment.releaseAll [] e₁).2 = { e with cursors := e₁.cursors } :=
      h₁.held.restored hclosed
    exact ⟨hfault f rfl, hrestored, (h₁.held.settled hclosed).handedOut⟩
  rintro found e₁ ⟨⟨⟨h₁, -, hfound⟩, hb₁, hsearched⟩, -⟩
  have h : Harvested e e₁ c segments found memtable memory := by
    refine ⟨hsearched, ?_, fun x hle hopen => (by cases h₁.opens x hle hopen), hb₁,
      fun x hx => (hfound x hx).1, fun x hx => (hfound x hx).2, hmemory⟩
    have hheld := h₁.held
    rw [List.append_nil, List.append_nil] at hheld
    rwa [List.map_map]
  obtain ⟨ps, hinputs, hcounts, htokens⟩ := h.streams
  obtain ⟨us, hrow⟩ := h.row
  have hids : (found.map (fun p => some p.1) ++ [memtable]).filterMap id =
      found.map Prod.fst ++ memtable.toList := by
    cases memtable <;> simp [List.filterMap_append, List.filterMap_map]
  refine ((hrow.union (by rw [hids, merged])).and
    (Merge.yields_union hinputs (Nat.zero_le _) hids)).bind ?_ fun f e₂ h₂ => h₂.1.elim
  rintro (_ | m) e₂ ⟨hjoined, hyields⟩
  · obtain ⟨hnone, rfl⟩ := hjoined
    obtain ⟨hnothing, hmemtable⟩ := h.merged_eq_nil.1 hnone
    have hback := h.restored
    rw [hsearched.segments_eq, hnothing] at hback
    exact ⟨hnothing, hmemtable, hback, hsearched.sifted⟩
  · obtain ⟨hne, t, hjoined⟩ := hjoined
    obtain ⟨-, q, hopened, hsound, hfull, -⟩ := hyields
    simp only [ensures_state_bind, ensures_map, ensures_openAs]
    refine h.acquired hnodup hne hjoined hopened fun token => ?_
    rw [← htokens]
    refine ⟨hsound token, ?_⟩
    rintro ⟨p, hp, htoken⟩
    exact hfull hcounts p hp token htoken

/-- A list whose close fails, an empty one, a released segment, and one where nothing is found. -/
def mixedSegments : List Segment :=
  [⟨0, ⟨0, 1, "a", 0, 9⟩, 2, 5, [120], [120]⟩, ⟨1, ⟨1, 2, "b", 0, 9⟩, 2, 5, [120], [120]⟩,
    ⟨2, ⟨2, 3, "c", 0, 9⟩, 2, 5, [120], [120]⟩, ⟨3, ⟨3, 4, "d", 0, 9⟩, 2, 5, [120], [120]⟩]

def mixedStore : Engine where
  segments := #[
    ⟨{ store := .external fun _ => .ok (some ⟨[2, 5], some (.device "close failed")⟩) }, 1⟩,
    ⟨{ store := .external fun _ => .ok (some ⟨[], none⟩) }, 1⟩,
    ⟨{ store := .external fun _ => .ok (some ⟨[7], none⟩) }, 0⟩,
    ⟨{ store := .external fun _ => .ok none }, 1⟩]
  cursors := #[.ofTokens [1, 5] none none]

def mixedCondition : Condition := ⟨"a", .text, some 0, .eq [120]⟩

def mixedMatches : Engine := (openAs mixedCondition (some 0) mixedSegments mixedStore).2

theorem openAs_mixed :
    (openAs mixedCondition (some 0) mixedSegments mixedStore).1 = .ok (some 4) ∧
      mixedMatches.segments.toList.map SegmentState.refs = [2, 1, 0, 1] ∧
      Call.answers (Call.on 4) [.next, .next, .next, .next] mixedMatches.cursors =
        [.ok (.token 1), .ok (.token 2), .ok (.token 5), .error .exhausted] ∧
      (closeEach [4, 4] mixedMatches).1 = [.error (.device "close failed"), .ok ()] ∧
      (closeQuietly [4] (closeEach [4, 4] mixedMatches).2).2.segments = mixedStore.segments := by
  have hids : (mixedSegments.map Segment.id).Nodup := by decide
  have hstored : ∀ s ∈ mixedSegments, Rising (mixedStore.stored mixedCondition s) ∧
      (mixedStore.stored mixedCondition s).length < 2 ^ 64 := by decide
  have hopened :
      Opened 0 ((#[] : Array Cursor).push (.ofTokens [1, 5] none none)) 0 ⟨[0], [1, 5]⟩ :=
    .ofTokens (Nat.le_refl 0) (by decide) none none
  have hmemory : Supplies mixedStore.cursors (some 0) [1, 5] :=
    ⟨.leaf 0, ⟨[0], hopened⟩, fun _ => by decide, rfl, ⟨_, rfl, .inl rfl⟩, by decide, rfl⟩
  have hrun : (openAs mixedCondition (some 0) mixedSegments mixedStore).1 = .ok (some 4) := by
    decide +kernel
  -- With the store in place, its whole run would be unfolded here.
  have h : Acquired mixedStore mixedCondition (some 0) [1, 5] mixedSegments 4 mixedMatches := by
    rw [mixedMatches]
    generalize mixedStore = e at hstored hmemory hrun ⊢
    have h := openAs_acquires hids hstored hmemory
    rwa [Ensures, hrun] at h
  obtain ⟨t, -, -, -, hback⟩ := h.back
  refine ⟨hrun, by decide +kernel, ?_, by decide +kernel, ?_⟩
  · rw [h.answers]
    decide +kernel
  · generalize mixedMatches = e' at hback ⊢
    have hclosed := congrArg Engine.segments (hback e'.cursors (.refl _) 2).2
    exact hclosed

end Matches
end SecondaryIndex
