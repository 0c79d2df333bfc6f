import SecondaryIndex.Cursor.Lifetime
import SecondaryIndex.Proofs.Ensures
import SecondaryIndex.Proofs.Loan

namespace SecondaryIndex.Loan

/-- All but segments and cursors is as it was. -/
structure Untouched (e₀ e : Engine) : Prop where
  files : e.files = e₀.files
  live : e.live = e₀.live
  schema : e.schema = e₀.schema
  published : e.published = e₀.published
  handles : e.handles = e₀.handles
  indexes : e.indexes = e₀.indexes
  sessions : e.sessions = e₀.sessions

theorem Untouched.refl (e : Engine) : Untouched e e := ⟨rfl, rfl, rfl, rfl, rfl, rfl, rfl⟩

theorem Untouched.beside {e₀ e e' : Engine} (h : Untouched e₀ e') (h' : Untouched e₀ e) :
    Untouched e e' :=
  ⟨h.files.trans h'.files.symm, h.live.trans h'.live.symm, h.schema.trans h'.schema.symm,
    h.published.trans h'.published.symm, h.handles.trans h'.handles.symm,
    h.indexes.trans h'.indexes.symm, h.sessions.trans h'.sessions.symm⟩

theorem eq_of_catalog {e e' : Engine} (hlive : e'.live = e.live) (hschema : e'.schema = e.schema)
    (hpublished : e'.published = e.published) (hhandles : e'.handles = e.handles)
    (hindexes : e'.indexes = e.indexes) :
    e' = { e with files := e'.files, segments := e'.segments, cursors := e'.cursors,
                  sessions := e'.sessions } := by
  rcases e' with ⟨⟩
  cases hlive
  cases hschema
  cases hpublished
  cases hhandles
  cases hindexes
  rfl

theorem Untouched.eq {e e' : Engine} (h : Untouched e e') :
    e' = { e with cursors := e'.cursors, segments := e'.segments } := by
  refine (eq_of_catalog h.live h.schema h.published h.handles h.indexes).trans ?_
  rw [h.files, h.sessions]

def IsLeaf (cs : Array Cursor) (x : Nat) : Prop :=
  ∃ c, cs[x]? = some c ∧ c.source.isTokens = true

/-- What matches read: a list of tokens, or a union of such lists. -/
def Inner (n : Nat) (cs : Array Cursor) (x : Nat) : Prop :=
  n ≤ x ∧ ∃ c, cs[x]? = some c ∧ (c.source.isTokens = true ∨ ∃ children : List Nat,
    c.source = .union children ∧ children ≠ [] ∧ ∀ k ∈ children, n ≤ k ∧ k < x ∧ IsLeaf cs k)

/-- What is built from matches: the matches themselves, and merges of them. -/
inductive Outer (n : Nat) (cs : Array Cursor) : Nat → Prop
  | «matches» {x : Nat} {c : Cursor} {m : Nat} {segments : List Segment} (new : n ≤ x)
      (at_ : cs[x]? = some c) (source : c.source = .matches m segments) : Outer n cs x
  | merge {x : Nat} {c : Cursor} {children : List Nat} (new : n ≤ x)
      (at_ : cs[x]? = some c)
      (source : c.source = .union children ∨ c.source = .intersection children)
      (some_ : children ≠ []) (below : ∀ k ∈ children, k < x)
      (parts : ∀ k ∈ children, Outer n cs k) : Outer n cs x

variable {n : Nat} {cs cs' : Array Cursor}

theorem IsLeaf.parts_eq {x : Nat} (h : IsLeaf cs x) : parts cs x = [] := by
  obtain ⟨c, hc, ht⟩ := h
  rw [parts_of_getElem? hc, Source.parts_of_isTokens ht]

theorem IsLeaf.extends {x : Nat} (h : IsLeaf cs x) (hx : Extends cs cs') : IsLeaf cs' x := by
  obtain ⟨c, hc, ht⟩ := h
  obtain ⟨c', hc', hs, -⟩ := hx x c hc
  exact ⟨c', hc', by rw [← Source.isTokens_blank, hs, Source.isTokens_blank, ht]⟩

theorem Inner.extends {x : Nat} (h : Inner n cs x) (hx : Extends cs cs') : Inner n cs' x := by
  obtain ⟨hn, c, hc, h⟩ := h
  obtain ⟨c', hc', hs, -⟩ := hx x c hc
  refine ⟨hn, c', hc', ?_⟩
  rcases h with ht | ⟨children, hu, hne, hk⟩
  · exact .inl (by rw [← Source.isTokens_blank, hs, Source.isTokens_blank, ht])
  · refine .inr ⟨children, ?_, hne, fun k hmem => ?_⟩
    · exact (Source.eq_of_blank_eq hs (by rw [hu]; rfl)).trans hu
    · obtain ⟨h₁, h₂, h₃⟩ := hk k hmem
      exact ⟨h₁, h₂, h₃.extends hx⟩

theorem Outer.extends {x : Nat} (h : Outer n cs x) (hx : Extends cs cs') : Outer n cs' x := by
  induction h with
  | «matches» hn hc hs =>
    obtain ⟨c', hc', hb, -⟩ := hx _ _ hc
    exact .matches hn hc' ((Source.eq_of_blank_eq hb (by rw [hs]; rfl)).trans hs)
  | merge hn hc hs hne hbelow _ ih =>
    obtain ⟨c', hc', hb, -⟩ := hx _ _ hc
    have hs' := Source.eq_of_blank_eq hb (by rcases hs with hs | hs <;> rw [hs] <;> rfl)
    exact .merge hn hc' (hs' ▸ hs) hne hbelow ih

theorem Inner.lt_size {x : Nat} (h : Inner n cs x) : x < cs.size := by
  obtain ⟨-, c, hc, -⟩ := h
  exact (Array.getElem?_eq_some_iff.1 hc).1

theorem Outer.lt_size {x : Nat} (h : Outer n cs x) : x < cs.size := by
  cases h with
  | «matches» _ hc _ => exact (Array.getElem?_eq_some_iff.1 hc).1
  | merge _ hc _ _ _ _ => exact (Array.getElem?_eq_some_iff.1 hc).1

theorem Outer.not_isLeaf {x : Nat} (h : Outer n cs x) : ¬ IsLeaf cs x := by
  rintro ⟨c, hc, ht⟩
  cases h with
  | «matches» _ hc' hs =>
    rw [hc] at hc'
    cases hc'
    rw [hs] at ht
    cases ht
  | merge _ hc' hs _ _ _ =>
    rw [hc] at hc'
    cases hc'
    rcases hs with hs | hs <;> rw [hs] at ht <;> cases ht

theorem Outer.not_inner {x : Nat} (h : Outer n cs x) : ¬ Inner n cs x := by
  rintro ⟨-, c, hc, ht | ⟨ks, hu, hne, hk⟩⟩
  · exact h.not_isLeaf ⟨c, hc, ht⟩
  · cases h with
    | «matches» _ hc' hs =>
      rw [hc] at hc'
      cases hc'
      rw [hu] at hs
      cases hs
    | merge _ hc' hs _ _ hp =>
      rw [hc] at hc'
      cases hc'
      rw [hu] at hs
      obtain ⟨k, hmem⟩ := List.exists_mem_of_ne_nil _ hne
      rcases hs with hs | hs <;> cases hs
      exact (hp k hmem).not_isLeaf (hk k hmem).2.2

theorem getElem?_push_cases {i : Nat} {c d : Cursor} (h : (cs.push c)[i]? = some d) :
    i = cs.size ∧ c = d ∨ cs[i]? = some d := by
  rw [Array.getElem?_push] at h
  split at h
  next heq => exact .inl ⟨heq, Option.some.inj h⟩
  next => exact .inr h

theorem closes_push {c : Cursor} {x : Nat} (hx : x < cs.size) :
    closes (cs.push c) x = closes cs x := by
  rw [closes, closes, Array.getElem?_push, if_neg (Nat.ne_of_lt hx)]

theorem Inner.push_ne_matches {c : Cursor} (h : Inner n (cs.push c) cs.size) (m : Nat)
    (segments : List Segment) : c.source ≠ .matches m segments := by
  obtain ⟨-, d, hd, hs⟩ := h
  rw [Array.getElem?_push_size] at hd
  cases hd
  rintro heq
  rw [heq] at hs
  rcases hs with hs | ⟨_, hs, -⟩ <;> cases hs

theorem Inner.push_lent {c : Cursor} (h : Inner n (cs.push c) cs.size) : c.lent = [] := by
  have hne := h.push_ne_matches
  rcases c with ⟨_, s, _, _, _⟩
  cases s with
  | «matches» m segments => exact absurd rfl (hne m segments)
  | _ => rfl

theorem Inner.push_owned {c : Cursor} (h : Inner n (cs.push c) cs.size) :
    owned (cs.push c) c = [] := by
  have hne := h.push_ne_matches
  rcases c with ⟨_, s, _, _, _⟩
  cases s with
  | «matches» m segments => exact absurd rfl (hne m segments)
  | _ => rfl

/-- The cursors after one more call of a cursor's close. -/
def closed (cs : Array Cursor) (x : Nat) : Array Cursor :=
  cs.modify x fun c => { c with closes := c.closes + 1 }

theorem getElem?_closed (cs : Array Cursor) (x i : Nat) :
    (closed cs x)[i]? =
      if x = i then cs[i]?.map fun c => { c with closes := c.closes + 1 } else cs[i]? := by
  rw [closed, Array.getElem?_modify]

theorem closes_closes (cs : Array Cursor) (x : Nat) : Closes cs (closed cs x) := by
  refine ⟨fun i c hc => ?_, Array.size_modify⟩
  rw [getElem?_closed, hc]
  split
  · exact ⟨_, rfl, rfl, rfl, Nat.le_succ _⟩
  · exact ⟨c, rfl, rfl, rfl, le_rfl⟩

theorem source_of_closed {x i : Nat} {d : Cursor} (h : (closed cs x)[i]? = some d) :
    ∃ d', cs[i]? = some d' ∧ d'.source = d.source := by
  rw [getElem?_closed] at h
  split at h
  · obtain ⟨d', hd', rfl⟩ := Option.map_eq_some_iff.1 h
    exact ⟨d', hd', rfl⟩
  · exact ⟨d, h, rfl⟩

theorem closes_closed {x : Nat} {c : Cursor} (hc : cs[x]? = some c) (y : Nat) :
    closes (closed cs x) y = closes cs y + if x = y then 1 else 0 := by
  rw [closes, closes, getElem?_closed]
  split
  next h =>
    subst h
    simp [hc]
  next => rfl

theorem perm_closed {x : Nat} {c : Cursor} (hn : n ≤ x) (hc : cs[x]? = some c) :
    (lentFrom n cs).Perm (c.lent ++ lentFrom n (closed cs x)) ∧
      (ownedFrom n cs).Perm (owned cs c ++ ownedFrom n (closed cs x)) := by
  have hc' : cs.toList[x]? = some c := by rwa [Array.getElem?_toList]
  have hparts : ∀ m, parts (closed cs x) m = parts cs m := by
    intro m
    rw [parts, parts, getElem?_closed]
    split <;> simp [Function.comp_def]
  have hclosed : ({ c with closes := c.closes + 1 } : Cursor).lent = [] ∧
      owned cs { c with closes := c.closes + 1 } = [] := by
    rcases c with ⟨_, s, _, _, _⟩
    cases s <;> simp [Cursor.lent, owned]
  constructor
  · obtain ⟨rest, h, h'⟩ := drop_modify_flatMap (g := Cursor.lent)
      (fun c => { c with closes := c.closes + 1 }) hn hc' fun _ => rfl
    rw [hclosed.1, List.nil_append] at h'
    rw [lentFrom, lentFrom, closed, Array.toList_modify]
    exact h.trans (h'.symm.append_left _)
  · obtain ⟨rest, h, h'⟩ := drop_modify_flatMap (g := owned cs) (k := owned (closed cs x))
      (fun c => { c with closes := c.closes + 1 }) hn hc' fun _ => owned_congr fun m _ _ => hparts m
    rw [hclosed.2, List.nil_append] at h'
    have htoList : (closed cs x).toList = cs.toList.modify x _ := Array.toList_modify
    rw [ownedFrom, ownedFrom, htoList]
    exact h.trans (h'.symm.append_left _)

/-- What has been borrowed since `e₀`: `S` are the segments and `H` the cursors in hand. Whatever
matches were opened, their segments satisfy `P`. -/
structure Borrowed (P : List Segment → Prop) (e₀ e : Engine) (S : List Nat) (H : List Nat) :
    Prop where
  untouched : Untouched e₀ e
  segments : ∀ i : Nat, e.segments[i]? = e₀.segments[i]?.map fun state =>
    { state with refs := state.refs + (lentFrom e₀.cursors.size e.cursors ++ S).count i }
  alive : ∀ i ∈ lentFrom e₀.cursors.size e.cursors ++ S,
    ∃ state, e₀.segments[i]? = some state ∧ state.refs ≠ 0
  older : ∀ i : Nat, i < e₀.cursors.size →
    e.cursors[i]?.map Cursor.still = e₀.cursors[i]?.map Cursor.still
  lenders : ∀ (id : Nat) c (m : Nat) segments, e₀.cursors.size ≤ id → e.cursors[id]? = some c →
    c.source = .matches m segments → m < id ∧ P segments
  inner : ∀ x ∈ ownedFrom e₀.cursors.size e.cursors ++ H, Inner e₀.cursors.size e.cursors x
  once : ∀ x, e₀.cursors.size ≤ x →
    (x ∈ ownedFrom e₀.cursors.size e.cursors ++ H ∨
      ∃ c, e.cursors[x]? = some c ∧ c.source.handedOut = true) →
    closes e.cursors x + (ownedFrom e₀.cursors.size e.cursors ++ H).count x = 1

namespace Borrowed

variable {P : List Segment → Prop} {e₀ e : Engine} {S S' : List Nat} {H H' : List Nat}

theorem size_le (h : Borrowed P e₀ e S H) : e₀.cursors.size ≤ e.cursors.size := by
  by_contra hlt
  have hold := h.older e.cursors.size (by omega)
  rw [Array.getElem?_eq_none le_rfl, Array.getElem?_eq_getElem (by omega)] at hold
  cases hold

theorem lentFrom_self (e : Engine) : lentFrom e.cursors.size e.cursors = [] := by
  rw [lentFrom, List.drop_eq_nil_of_le (by simp), List.flatMap_nil]

theorem ownedFrom_self (e : Engine) : ownedFrom e.cursors.size e.cursors = [] := by
  rw [ownedFrom, List.drop_eq_nil_of_le (by simp), List.flatMap_nil]

theorem refl (P : List Segment → Prop) (e : Engine) : Borrowed P e e [] [] where
  untouched := .refl e
  segments i := by simp [lentFrom_self]
  alive := by simp [lentFrom_self]
  older _ _ := rfl
  lenders id c m segments hn hc hs := by
    have := (Array.getElem?_eq_some_iff.1 hc).1
    omega
  inner := by simp [ownedFrom_self]
  once x hn hx := by
    rcases hx with hx | ⟨c, hc, -⟩
    · simp [ownedFrom_self] at hx
    · have := (Array.getElem?_eq_some_iff.1 hc).1
      omega

theorem start (P : List Segment → Prop) (e : Engine) :
    Borrowed P { e with sessions := e.sessions } e [] [] := .refl P e

theorem perm (h : Borrowed P e₀ e S H) (hS : S.Perm S') (hH : H.Perm H') :
    Borrowed P e₀ e S' H' where
  untouched := h.untouched
  segments i := by rw [h.segments, (hS.append_left _).count_eq]
  alive i hi := h.alive i ((hS.append_left _).mem_iff.2 hi)
  older := h.older
  lenders := h.lenders
  inner x hx := h.inner x ((hH.append_left _).mem_iff.2 hx)
  once x hn hx := by
    rw [← (hH.append_left _).count_eq]
    exact h.once x hn (hx.imp_left (hH.append_left _).mem_iff.2)

theorem refs_eq (h : Borrowed P e₀ e S H) (s : Segment) :
    e.refs s = e₀.refs s + (lentFrom e₀.cursors.size e.cursors ++ S).count s.id := by
  have hs := h.segments s.id
  cases h₀ : e₀.segments[s.id]? with
  | none =>
    have hcount : (lentFrom e₀.cursors.size e.cursors ++ S).count s.id = 0 := by
      refine List.count_eq_zero.2 fun hmem => ?_
      obtain ⟨state, hstate, -⟩ := h.alive s.id hmem
      rw [h₀] at hstate
      cases hstate
    simp only [h₀, Option.map_none] at hs
    simp [Engine.refs, Engine.segment?, hs, h₀, hcount]
  | some state =>
    rw [h₀, Option.map_some] at hs
    simp [Engine.refs, Engine.segment?, hs, h₀]

theorem borrow {s : Segment} (h : Borrowed P e₀ e S H) (hr : e.refs s ≠ 0) :
    Borrowed P e₀ (e.updateSegment s fun state => { state with refs := state.refs + 1 })
      (s.id :: S) H where
  untouched := { h.untouched with }
  segments i := by
    change (e.segments.modify s.id _)[i]? = _
    rw [Array.getElem?_modify, h.segments]
    by_cases hi : s.id = i
    · subst hi
      cases e₀.segments[s.id]? <;> simp [List.count_append, Engine.updateSegment, Nat.add_assoc]
    · simp [hi, List.count_append, Engine.updateSegment]
  alive i hi := by
    by_cases hi' : i ∈ lentFrom e₀.cursors.size e.cursors ++ S
    · exact h.alive i hi'
    obtain rfl : i = s.id := by
      simp only [List.mem_append, List.mem_cons, Engine.updateSegment] at hi hi'
      tauto
    rw [h.refs_eq, List.count_eq_zero_of_not_mem hi', Nat.add_zero] at hr
    cases hs : e₀.segments[s.id]? with
    | none => simp [Engine.refs, Engine.segment?, hs] at hr
    | some state => exact ⟨state, rfl, by simpa [Engine.refs, Engine.segment?, hs] using hr⟩
  older := h.older
  lenders := h.lenders
  inner := h.inner
  once := h.once

theorem giveBack {s : Segment} (h : Borrowed P e₀ e (s.id :: S) H) :
    Borrowed P e₀ (e.updateSegment s fun state => { state with refs := state.refs - 1 }) S H where
  untouched := { h.untouched with }
  segments i := by
    change (e.segments.modify s.id _)[i]? = _
    rw [Array.getElem?_modify, h.segments]
    by_cases hi : s.id = i
    · subst hi
      cases e₀.segments[s.id]? <;> simp [List.count_append, Engine.updateSegment]
      omega
    · simp [hi, List.count_append, Engine.updateSegment]
  alive i hi := by
    refine h.alive i ?_
    simp only [List.mem_append, List.mem_cons, Engine.updateSegment] at hi ⊢
    tauto
  older := h.older
  lenders := h.lenders
  inner := h.inner
  once := h.once

theorem retain (h : Borrowed P e₀ e S H) (s : Segment) : Ensures s.retain e fun r e' =>
    e'.cursors = e.cursors ∧
      (r = .ok false ∧ Borrowed P e₀ e' S H ∨ r = .ok true ∧ Borrowed P e₀ e' (s.id :: S) H) := by
  rw [Ensures, Segment.retain_apply]
  by_cases hr : e.refs s = 0
  · rw [if_pos hr]
    exact ⟨rfl, .inl ⟨rfl, h⟩⟩
  · rw [if_neg hr]
    exact ⟨rfl, .inr ⟨rfl, h.borrow hr⟩⟩

/-- A reference in hand can be given back, and it is never the last one. -/
theorem release {s : Segment} (h : Borrowed P e₀ e (s.id :: S) H) : Ensures s.release e fun r e' =>
    r = .ok () ∧ e'.cursors = e.cursors ∧ Borrowed P e₀ e' S H := by
  obtain ⟨state, hs, hrefs⟩ := h.alive s.id (by simp)
  have hr : 2 ≤ e.refs s := by
    have h₀ : e₀.refs s = state.refs := by simp [Engine.refs, Engine.segment?, hs]
    have := h.refs_eq s
    rw [List.count_append, List.count_cons_self] at this
    omega
  have happly := Segment.release_apply s e
  rw [if_neg (by omega)] at happly
  simp only [if_neg (show ¬ e.refs s = 1 by omega)] at happly
  rw [Ensures, happly]
  exact ⟨rfl, rfl, h.giveBack⟩

theorem releaseAll {segments : List Segment}
    (h : Borrowed P e₀ e (segments.map Segment.id ++ S) H) :
    Ensures (Segment.releaseAll segments) e fun r e' =>
      r = .ok () ∧ e'.cursors = e.cursors ∧ Borrowed P e₀ e' S H := by
  refine ⟨Act.allQuietly_fst _ _ _, ?_⟩
  refine (Act.ensures_allQuietly (I := fun rest e' => e'.cursors = e.cursors ∧
    Borrowed P e₀ e' (rest.map Segment.id ++ S) H) ⟨rfl, h⟩ ?_)
  intro s rest e' ⟨hc, h'⟩
  exact (release h').mono fun r e'' ⟨_, hc', h''⟩ => ⟨hc'.trans hc, h''⟩

theorem owned_push (h : Borrowed P e₀ e S H) (c : Cursor) :
    ownedFrom e₀.cursors.size (e.cursors.push c) =
      ownedFrom e₀.cursors.size e.cursors ++ owned (e.cursors.push c) c := by
  rw [ownedFrom, Array.toList_push, List.drop_append_of_le_length (by simpa using h.size_le),
    List.flatMap_append, List.flatMap_singleton, ownedFrom]
  congr 1
  refine List.flatMap_congr fun d hd => owned_congr fun (m : Nat) segments hs => ?_
  obtain ⟨k, hk⟩ := List.mem_iff_getElem?.1 hd
  rw [List.getElem?_drop, Array.getElem?_toList] at hk
  have hlt := (Array.getElem?_eq_some_iff.1 hk).1
  have hm := (h.lenders _ d m segments (Nat.le_add_right _ k) hk hs).1
  exact (Extends.push e.cursors c).parts (by omega)

theorem lent_push (h : Borrowed P e₀ e S H) (c : Cursor) :
    lentFrom e₀.cursors.size (e.cursors.push c) =
      lentFrom e₀.cursors.size e.cursors ++ c.lent := by
  rw [lentFrom, Array.toList_push, List.drop_append_of_le_length (by simpa using h.size_le),
    List.flatMap_append, List.flatMap_singleton, lentFrom]

theorem tracked_lt (h : Borrowed P e₀ e S H) {x : Nat}
    (hx : x ∈ ownedFrom e₀.cursors.size e.cursors ++ H ∨
      ∃ c, e.cursors[x]? = some c ∧ c.source.handedOut = true) : x < e.cursors.size := by
  rcases hx with hx | ⟨c, hc, -⟩
  · exact (h.inner x hx).lt_size
  · exact (Array.getElem?_eq_some_iff.1 hc).1

theorem push {c : Cursor} (h : Borrowed P e₀ e (c.lent ++ S) (owned (e.cursors.push c) c ++ H))
    (hlender : ∀ (m : Nat) segments, c.source = .matches m segments →
      m < e.cursors.size ∧ P segments)
    (hout : c.source.handedOut = false) :
    Borrowed P e₀ { e with cursors := e.cursors.push c } S H where
  untouched := { h.untouched with }
  segments i := by
    change e.segments[i]? = _
    rw [h.segments, h.lent_push, List.append_assoc]
  alive i hi := by
    rw [h.lent_push, List.append_assoc] at hi
    exact h.alive i hi
  older i hi := by
    have := h.size_le
    change (e.cursors.push c)[i]?.map _ = _
    rw [Array.getElem?_push, if_neg (by omega), h.older i hi]
  lenders id d m segments hn hd hs := by
    rcases getElem?_push_cases hd with ⟨rfl, rfl⟩ | hd
    · exact hlender m segments hs
    · exact h.lenders id d m segments hn hd hs
  inner x hx := by
    rw [h.owned_push, List.append_assoc] at hx
    exact (h.inner x hx).extends (.push _ _)
  once x hn hx := by
    have hold : x ∈ ownedFrom e₀.cursors.size e.cursors ++ (owned (e.cursors.push c) c ++ H) ∨
        ∃ d, e.cursors[x]? = some d ∧ d.source.handedOut = true := by
      rcases hx with hx | ⟨d, hd, hout'⟩
      · rw [h.owned_push, List.append_assoc] at hx
        exact .inl hx
      · rcases getElem?_push_cases hd with ⟨-, rfl⟩ | hd
        · rw [hout] at hout'
          cases hout'
        · exact .inr ⟨d, hd, hout'⟩
    change closes (e.cursors.push c) x + _ = 1
    rw [closes_push (h.tracked_lt hold), h.owned_push, List.append_assoc]
    exact h.once x hn hold

theorem pushInner {c : Cursor} (h : Borrowed P e₀ e S H) (hcloses : c.closes = 0)
    (hin : Inner e₀.cursors.size (e.cursors.push c) e.cursors.size) :
    Borrowed P e₀ { e with cursors := e.cursors.push c } S (e.cursors.size :: H) where
  untouched := { h.untouched with }
  segments i := by
    change e.segments[i]? = _
    rw [h.segments, h.lent_push, hin.push_lent, List.append_nil]
  alive i hi := by
    rw [h.lent_push, hin.push_lent, List.append_nil] at hi
    exact h.alive i hi
  older i hi := by
    have := h.size_le
    change (e.cursors.push c)[i]?.map _ = _
    rw [Array.getElem?_push, if_neg (by omega), h.older i hi]
  lenders id d m segments hn hd hs := by
    rcases getElem?_push_cases hd with ⟨-, rfl⟩ | hd
    · exact absurd hs (hin.push_ne_matches m segments)
    · exact h.lenders id d m segments hn hd hs
  inner x hx := by
    rw [h.owned_push, hin.push_owned, List.append_nil, List.mem_append, List.mem_cons] at hx
    rcases hx with hx | rfl | hx
    · exact (h.inner x (List.mem_append_left _ hx)).extends (.push _ _)
    · exact hin
    · exact (h.inner x (List.mem_append_right _ hx)).extends (.push _ _)
  once x hn hx := by
    change closes (e.cursors.push c) x + _ = 1
    rw [h.owned_push, hin.push_owned, List.append_nil] at hx ⊢
    rw [List.count_append, List.count_cons]
    -- The new cursor is in hand, and no one else has to close it; older ones count as before.
    by_cases hnew : x = e.cursors.size
    · subst hnew
      have hnot : e.cursors.size ∉ ownedFrom e₀.cursors.size e.cursors ++ H :=
        fun hmem => lt_irrefl _ (h.inner _ hmem).lt_size
      rw [List.mem_append, not_or] at hnot
      simp [closes, hcloses, List.count_eq_zero_of_not_mem hnot.1,
        List.count_eq_zero_of_not_mem hnot.2]
    · have hold : x ∈ ownedFrom e₀.cursors.size e.cursors ++ H ∨
          ∃ d, e.cursors[x]? = some d ∧ d.source.handedOut = true := by
        rcases hx with hx | ⟨d, hd, hout⟩
        · simp only [List.mem_append, List.mem_cons, hnew, false_or] at hx ⊢
          exact .inl hx
        · exact .inr ⟨d, (getElem?_push_cases hd).resolve_left fun h => hnew h.1, hout⟩
      have honce := h.once x hn hold
      rw [List.count_append] at honce
      rw [closes_push (h.tracked_lt hold), if_neg (by simpa using Ne.symm hnew)]
      exact honce

theorem forget {x : Nat} {c : Cursor} (h : Borrowed P e₀ e S (x :: H)) (hc : e.cursors[x]? = some c)
    (hout : c.source.handedOut = false) : Borrowed P e₀ e S H where
  untouched := h.untouched
  segments := h.segments
  alive := h.alive
  older := h.older
  lenders := h.lenders
  inner y hy := by
    refine h.inner y ?_
    simp only [List.mem_append, List.mem_cons] at hy ⊢
    tauto
  once y hn hy := by
    have honce := h.once y hn (hy.imp_left fun hy => by
      simp only [List.mem_append, List.mem_cons] at hy ⊢
      tauto)
    rw [List.count_append, List.count_cons] at honce
    rw [List.count_append]
    by_cases hxy : x = y
    · subst hxy
      rw [beq_self_eq_true, if_pos rfl] at honce
      rcases hy with hy | ⟨d, hd, hout'⟩
      · have := List.count_pos_iff.2 hy
        rw [List.count_append] at this
        omega
      · rw [hc] at hd
        cases hd
        rw [hout] at hout'
        cases hout'
    · simpa [hxy] using honce

theorem stills (h : Borrowed P e₀ e S H) {cs : Array Cursor} (hs : Stills e.cursors cs) :
    Borrowed P e₀ { e with cursors := cs } S H where
  untouched := { h.untouched with }
  segments i := by
    change e.segments[i]? = _
    rw [h.segments, hs.lentFrom]
  alive i hi := by
    rw [hs.lentFrom] at hi
    exact h.alive i hi
  older i hi := by
    change cs[i]?.map _ = _
    rw [hs i, h.older i hi]
  lenders id c m segments hn hc hsource := by
    obtain ⟨c', hc', hb, -⟩ := hs.symm.extends id c hc
    exact h.lenders id c' m segments hn hc'
      ((Source.eq_of_blank_eq hb (by rw [hsource]; rfl)).trans hsource)
  inner x hx := by
    rw [hs.ownedFrom] at hx
    exact (h.inner x hx).extends hs.extends
  once x hn hx := by
    rw [hs.ownedFrom, hs.closes]
    rw [hs.ownedFrom] at hx
    refine h.once x hn (hx.imp_right ?_)
    rintro ⟨c, hc, hout⟩
    obtain ⟨c', hc', hb, -⟩ := hs.symm.extends x c hc
    exact ⟨c', hc', by rw [← Source.handedOut_blank, hb, Source.handedOut_blank, hout]⟩

theorem withSessions (h : Borrowed P e₀ e S H) (sessions : Array Session) :
    Borrowed P { e₀ with sessions } { e with sessions } S H where
  untouched := { h.untouched with sessions := rfl }
  segments := h.segments
  alive := h.alive
  older := h.older
  lenders := h.lenders
  inner := h.inner
  once := h.once

/-- Counting one more call of a cursor's close hands out what the cursor held. If the cursor was in
hand itself, it is closed now and leaves the hand. -/
theorem close {K : List Nat} {x : Nat} {c : Cursor} (h : Borrowed P e₀ e S (K ++ H))
    (hn : e₀.cursors.size ≤ x) (hc : e.cursors[x]? = some c)
    (hK : K = [x] ∨ K = [] ∧ ¬ Inner e₀.cursors.size e.cursors x ∧ c.source.handedOut = false) :
    Borrowed P e₀ { e with cursors := closed e.cursors x } (c.lent ++ S)
      (owned e.cursors c ++ H) := by
  obtain ⟨hlent, howned⟩ := perm_closed hn hc
  have hS : (lentFrom e₀.cursors.size (closed e.cursors x) ++ (c.lent ++ S)).Perm
      (lentFrom e₀.cursors.size e.cursors ++ S) := by
    rw [← List.append_assoc]
    exact (List.perm_append_comm.trans hlent.symm).append_right S
  have hH : (ownedFrom e₀.cursors.size (closed e.cursors x) ++ (owned e.cursors c ++ H)).Perm
      (ownedFrom e₀.cursors.size e.cursors ++ H) := by
    rw [← List.append_assoc]
    exact (List.perm_append_comm.trans howned.symm).append_right H
  have hsub : ∀ y, y ∈ ownedFrom e₀.cursors.size e.cursors ++ H →
      y ∈ ownedFrom e₀.cursors.size e.cursors ++ (K ++ H) := by
    intro y hy
    simp only [List.mem_append] at hy ⊢
    tauto
  refine ⟨{ h.untouched with }, fun i => ?_, fun i hi => ?_, fun i hi => ?_, ?_, fun y hy => ?_,
    fun y hy htracked => ?_⟩
  · change e.segments[i]? = _
    rw [h.segments, hS.count_eq]
  · exact h.alive i (hS.mem_iff.1 hi)
  · rw [← h.older i hi]
    simp [closed, Array.getElem?_modify, show x ≠ i by omega]
  · intro id d m segments hid hd hs
    obtain ⟨d', hd', hs'⟩ := source_of_closed hd
    exact h.lenders id d' m segments hid hd' (hs' ▸ hs)
  · exact (h.inner y (hsub y (hH.mem_iff.1 hy))).extends (closes_closes _ _).ext
  · rw [hH.count_eq]
    change closes (closed e.cursors x) y + _ = 1
    have hold : y ∈ ownedFrom e₀.cursors.size e.cursors ++ H ∨
        ∃ d, e.cursors[y]? = some d ∧ d.source.handedOut = true := by
      refine htracked.imp hH.mem_iff.1 ?_
      rintro ⟨d, hd, hout⟩
      obtain ⟨d', hd', hs'⟩ := source_of_closed hd
      exact ⟨d', hd', hs' ▸ hout⟩
    -- A cursor that was in hand is one to close less, and was closed once more.
    have honce := h.once y hy (hold.imp_left (hsub y))
    rw [closes_closed hc]
    rcases hK with rfl | ⟨rfl, hnot, hout⟩
    · simp only [List.count_append, List.count_singleton, beq_iff_eq] at honce ⊢
      split_ifs at honce ⊢ <;> omega
    · have hne : x ≠ y := by
        rintro rfl
        rcases hold with hmem | ⟨d, hd, hout'⟩
        · exact hnot (h.inner x hmem)
        · rw [hc] at hd
          cases hd
          rw [hout] at hout'
          cases hout'
      rw [if_neg hne]
      exact honce

end Borrowed
end SecondaryIndex.Loan
