import SecondaryIndex.Proofs.Answers
import SecondaryIndex.Proofs.Indexes
import SecondaryIndex.Proofs.Serving.Opening

namespace SecondaryIndex

def ValueType.Incomparable (f : Fault) : Prop :=
  ∃ (type : ValueType) (a b : Bytes), type.compare a b = .error f

/-- A computation that fails only where values cannot be compared. -/
def Comparing {α : Type} (x : Except Fault α) : Prop :=
  ∀ f, x = .error f → ValueType.Incomparable f

namespace Comparing

variable {α β : Type} {x : Except Fault α} {next : α → Except Fault β}

theorem pure (a : α) : Comparing (pure a : Except Fault α) := nofun

theorem bind (h : Comparing x) (hnext : ∀ a, Comparing (next a)) : Comparing (x >>= next) := by
  intro f hf
  rcases bind_eq_error.1 hf with hx | ⟨a, -, hf⟩
  · exact h f hx
  · exact hnext a f hf

theorem ite {c : Prop} [Decidable c] {y : Except Fault α} (h : Comparing x) (h' : Comparing y) :
    Comparing (if c then x else y) := by
  split
  · exact h
  · exact h'

theorem compare (type : ValueType) (a b : Bytes) : Comparing (type.compare a b) :=
  fun _ hf => ⟨type, a, b, hf⟩

theorem less (type : ValueType) (a b : Bytes) : Comparing (type.less a b) :=
  .bind (.compare type a b) fun _ => .pure _

end Comparing

theorem Condition.comparing_accepts (c : Condition) (value : Bytes) :
    Comparing (c.accepts value) := by
  have hlower : ∀ bound, Comparing (clearsLower c.type bound value) := by
    rintro (_ | b)
    · exact .pure _
    · exact .bind (.compare _ _ _) fun _ => .pure _
  have hupper : ∀ bound, Comparing (clearsUpper c.type bound value) := by
    rintro (_ | b)
    · exact .pure _
    · exact .bind (.compare _ _ _) fun _ => .pure _
  rw [accepts]
  split
  · exact .bind (.compare _ _ _) fun _ => .pure _
  · exact .bind (.compare _ _ _) fun _ => .pure _
  · exact .pure _
  · exact .pure _
  · exact .bind (hlower _) fun _ => .ite (hupper _) (.pure _)

namespace Postings

theorem comparing_countWhile {test : Bytes → Except Fault Bool} (h : ∀ term, Comparing (test term))
    (entries : List Entry) : Comparing (countWhile test entries) := by
  induction entries with
  | nil => exact .pure _
  | cons e rest ih =>
    rw [countWhile]
    exact .bind (h e.term) fun _ => .ite (.bind ih fun _ => .pure _) (.pure _)

theorem comparing_countBelow (p : Postings) (bound : Bytes) : Comparing (p.countBelow bound) :=
  comparing_countWhile (fun _ => .bind (.compare _ _ _) fun _ => .pure _) _

theorem comparing_lookup (type : ValueType) (term : Bytes) (entries : List Entry) :
    Comparing (lookup type term entries) := by
  induction entries with
  | nil => exact .pure _
  | cons e rest ih =>
    rw [lookup]
    refine .bind (.compare _ _ _) fun o => ?_
    cases o with
    | lt => exact ih
    | eq => exact .pure _
    | gt => exact .pure _

theorem comparing_accepted (c : Condition) (entries : List Entry) :
    Comparing (accepted c entries) := by
  induction entries with
  | nil => exact .pure _
  | cons e rest ih =>
    rw [accepted]
    exact .bind (c.comparing_accepts e.term) fun _ => .bind ih fun _ => .pure _

theorem comparing_between (p : Postings) (lower upper : Option Bound) :
    Comparing (p.between lower upper) := by
  have hstop : ∀ bound, Comparing (p.countUpTo bound) := fun bound =>
    comparing_countWhile (fun _ => .bind (.compare _ _ _) fun _ => .pure _) _
  cases lower with
  | none =>
    cases upper with
    | none => exact .pure _
    | some b => exact .bind (.pure _) fun _ => .bind (hstop b.value) fun _ => .pure _
  | some a =>
    refine .bind (p.comparing_countBelow a.value) fun _ => ?_
    cases upper with
    | none => exact .bind (.pure _) fun _ => .pure _
    | some b => exact .bind (hstop b.value) fun _ => .pure _

theorem comparing_search (p : Postings) (c : Condition) : Comparing (p.search c) := by
  refine .bind ?_ fun _ => .pure _
  rw [matching]
  split
  · exact comparing_lookup _ _ _
  · exact .bind (p.comparing_between _ _) fun _ => comparing_accepted c _
  · exact .bind (p.comparing_countBelow _) fun _ => .pure _
  · exact comparing_accepted c _
  · exact comparing_accepted c _

end Postings

theorem TermRanges.comparing_search {type : ValueType} {segments : List Segment} {r : TermRanges}
    (hr : build type segments = .ok r) (c : Condition) : Comparing (r.search c) := by
  obtain ⟨bounds, -, hr⟩ := bind_eq_ok.1 hr
  obtain ⟨tree, htree, hr⟩ := bind_eq_ok.1 hr
  obtain ⟨_, -, htree⟩ := bind_eq_ok.1 htree
  cases hr
  cases htree
  rw [search]
  split
  · exact .pure _
  · refine .ite (.pure _) (.bind ?_ fun _ => .pure _)
    exact .bind (.less type _ _) fun _ => .ite (.pure _) (.pure _)

theorem Snapshot.comparing_candidates {v : Snapshot} (hv : v.Built) (scope : List DataFile)
    (c : Condition) : Comparing (v.candidates scope c) := by
  obtain ⟨-, -, -, hterms, -⟩ := built_of_build hv
  exact .bind (TermRanges.comparing_search hterms c) fun _ => .pure _

namespace Candidate

variable {e : Engine} (he : e.Indexed) (scope : List DataFile) (group : Group)
include he

theorem comparing_direct (c : Condition) : Comparing (direct e scope group c) := by
  rw [direct]
  cases hv : snapshotFor e group c with
  | none => exact .pure _
  | some v =>
    obtain ⟨-, -, -, -, hbuilt⟩ := built_of_snapshotFor he hv
    exact .bind (Snapshot.comparing_candidates hbuilt scope c) fun _ => .pure _

theorem comparing_primaryOf (best : Option Candidate) (cs : List Condition) :
    Comparing (primaryOf e scope group best cs) := by
  induction cs generalizing best with
  | nil => exact .pure _
  | cons c rest ih => exact .bind (comparing_direct he scope group c) fun _ => ih _

theorem comparing_beside (primary : Option Candidate) (c : Condition) :
    Comparing (beside e scope group primary c) := by
  cases primary with
  | none => exact comparing_direct he scope group c
  | some p => exact .ite (comparing_direct he scope group c) (.ite (.pure _) (.pure _))

theorem comparing_ofGroup (connective : Connective) :
    Comparing (ofGroup e scope connective group) := by
  have hall : ∀ (primary : Option Candidate) (cs : List Condition),
      Comparing (allBeside e scope group primary cs) := by
    intro primary cs
    induction cs with
    | nil => exact .pure _
    | cons c rest ih =>
      exact .bind (comparing_beside he scope group primary c) fun _ => .bind ih fun _ => .pure _
  cases connective with
  | and => exact .bind (comparing_primaryOf he scope group none _) fun _ => hall _ _
  | or => exact .bind (.pure _) fun _ => hall _ _

end Candidate

/-- If the act fails, it does so with a fault in `X`. -/
def FailsBy {α : Type} (X : Fault → Prop) (act : Act α) (e : Engine) : Prop :=
  Ensures act e fun r _ => ∀ f, r = .error f → X f

namespace FailsBy

variable {α β : Type} {X Y : Fault → Prop} {act : Act α} {next : α → Act β} {e : Engine}

theorem mono (h : FailsBy X act e) (imp : ∀ f, X f → Y f) : FailsBy Y act e :=
  fun f hf => imp f (h f hf)

theorem pure (a : α) : FailsBy X (pure a : Act α) e := nofun

/-- What follows is run only after a success, of which `R` tells more. -/
theorem bind {R : Except Fault α → Engine → Prop} (h : FailsBy X act e) (hact : Ensures act e R)
    (hnext : ∀ a e', R (.ok a) e' → FailsBy X (next a) e') : FailsBy X (act >>= next) e := by
  refine (Ensures.and h hact).bind (fun a e' h' => hnext a e' h'.2) ?_
  rintro f e' ⟨h', -⟩ _ ⟨⟩
  exact h' f rfl

theorem orUndo {undo : Act Unit} (h : FailsBy X act e) : FailsBy X (Act.orUndo act undo) e :=
  Ensures.orUndo h (fun _ _ _ => nofun) fun f _ hf => by
    rintro _ ⟨⟩
    exact hf f rfl

theorem settle {r : Except Fault α} (h : ∀ f, r = .error f → X f) : FailsBy X (Act.settle r) e := by
  rw [FailsBy, Act.ensures_settle]
  exact h

end FailsBy

/-- What can go wrong with a segment that is referenced: searching it fails, or the search brings no
token, and closing what it brings fails. -/
inductive Segment.Faults (s : Segment) (e : Engine) (c : Condition) : Fault → Prop
  | search {state : SegmentState} {f : Fault} (at_ : e.segment? s = some state)
      (live : state.refs ≠ 0) (fails : state.reader.search c = .error f) : Faults s e c f
  | close {state : SegmentState} {found : Found} {f : Fault} (at_ : e.segment? s = some state)
      (live : state.refs ≠ 0) (brings : state.reader.search c = .ok (some found))
      (empty : (Extent.ofTokens found.tokens).count = 0) (fails : found.closeFault = some f) :
      Faults s e c f

def Condition.Faults (c : Condition) (e : Engine) (segments : List Segment) (f : Fault) : Prop :=
  ∃ s ∈ segments, s.Faults e c f

def Candidate.Faults (e : Engine) (cands : List Candidate) (f : Fault) : Prop :=
  ValueType.Incomparable f ∨ ∃ d ∈ cands, d.condition.Faults e d.segments f

namespace Loan.Borrowed

open Act Cursor

variable {P : List Segment → Prop} {e₀ e : Engine} {S H : List Nat}

theorem fails_closeTokens {x : Nat} {d : Cursor} (hd : e.cursors[x]? = some d)
    (ht : d.source.isTokens = true) :
    FailsBy (fun f => d.source.closeFault = some f) (Cursor.close x) e := by
  rw [FailsBy, Cursor.close, ensures_closeWithin, Array.getD_eq_getD_getElem?, hd, Option.getD_some]
  rcases d with ⟨_, source, _, _, _⟩
  cases source with
  | tokens _ closeFault _ =>
    cases closeFault with
    | none => rintro _ ⟨⟩
    | some f =>
      rintro _ ⟨⟩
      rfl
  | _ => cases ht

theorem fails_release {X : Fault → Prop} {s : Segment} {α : Type} {a : α}
    (h : Borrowed P e₀ e (s.id :: S) H) : FailsBy X (do s.release; return a) e :=
  (release h).bind (fun _ _ _ => nofun) fun _ _ h => nomatch h.1

theorem fails_search (h : Borrowed P e₀ e S H) (s : Segment) (c : Condition)
    (hrefs : e.refs s ≠ 0) : FailsBy (s.Faults e₀ c) (s.search c) e ∧
      Ensures (s.search c) e fun r e' => ∀ x, r = .ok (some x) → ∃ d, e'.cursors[x]? = some d ∧
        (d.extent.count = 0 → ∀ f, d.source.closeFault = some f → s.Faults e₀ c f) := by
  obtain ⟨state, state₀, hstate, hlive, hstate₀, hsame, hrefs₀, -⟩ := h.exists_reader c hrefs
  have hlive₀ : state₀.refs ≠ 0 := by simpa [Engine.refs, hstate₀] using hrefs₀
  rw [FailsBy, Segment.search, ensures_get_bind, ensures_get_bind]
  simp only [hstate, if_neg hlive, ensures_settle_bind, ← hsame]
  cases hsearch : state₀.reader.search c with
  | error f =>
    constructor <;> rintro _ ⟨⟩
    exact .search hstate₀ hlive₀ hsearch
  | ok found =>
    cases found with
    | none => constructor <;> rintro _ ⟨⟩
    | some found =>
      simp only [ensures_map, ensures_openAs]
      constructor <;> rintro _ ⟨⟩
      exact ⟨_, Array.getElem?_push_size, fun hempty f hf =>
        .close hstate₀ hlive₀ hsearch hempty hf⟩

theorem brings {s : Segment} (h : Borrowed P e₀ e (s.id :: S) H) (c : Condition)
    (hrefs : e.refs s ≠ 0) :
    Ensures (Act.orUndo (s.search c) s.release) e fun
      | .error _, _ => True
      | .ok none, e' => e' = e
      | .ok (some x), e' => Borrowed P e₀ e' (s.id :: S) (x :: H) ∧ ∃ d, e'.cursors[x]? = some d ∧
          d.source.isTokens = true ∧ (d.extent.count = 0 →
            ∀ f, d.source.closeFault = some f → s.Faults e₀ c f) := by
  refine ((h.fails_search s c hrefs).2.and (h.search s c)).orUndo ?_ fun _ _ _ => trivial
  rintro (_ | x) e₁ ⟨hbrings, h₁⟩
  · exact h₁
  · obtain ⟨d, hd, hfaults⟩ := hbrings x rfl
    obtain ⟨d', hd', ht⟩ := h₁.2
    rw [hd] at hd'
    cases hd'
    exact ⟨h₁.1.held, d, hd, ht, hfaults⟩

theorem fails_empty {s : Segment} {x : Nat} {d : Cursor}
    (h : Borrowed P e₀ e (s.id :: S) (x :: H))
    (hd : e.cursors[x]? = some d) (ht : d.source.isTokens = true) :
    FailsBy (fun f => d.source.closeFault = some f)
      (do Act.orUndo (Cursor.close x) s.release; s.release; return (none : Option CursorId)) e := by
  have hclosed : Ensures (Act.orUndo (Cursor.close x) s.release) e fun
      | .error _, _ => True
      | .ok (), e' => Borrowed P e₀ e' (s.id :: S) H :=
    (closeLeaf h ⟨d, hd, ht⟩ (Nat.succ_pos x)).orUndo (fun _ _ h₁ => h₁.1) fun _ _ _ => trivial
  exact (fails_closeTokens hd ht).orUndo.bind hclosed fun _ _ h₁ => fails_release h₁

theorem fails_probe (h : Borrowed P e₀ e S H) (c : Condition) (s : Segment) :
    FailsBy (s.Faults e₀ c) (Matches.probe c s) e := by
  rw [Matches.probe]
  -- Retaining does not fail: it tells whether the segment is still there.
  refine (h.retained s c).bind ?_ ?_
  swap
  · rintro f e₁ ⟨-, ⟨hr, -⟩ | ⟨hr, -⟩⟩ <;> cases hr
  rintro b e₁ ⟨-, ⟨hb, -⟩ | ⟨hb, h₁, hrefs⟩⟩ <;> cases hb
  · exact FailsBy.pure none
  refine FailsBy.bind (h₁.fails_search s c hrefs).1.orUndo (h₁.brings c hrefs) ?_
  rintro (_ | x) e₂ h₂
  · obtain rfl : e₂ = e₁ := h₂
    exact fails_release h₁
  obtain ⟨h₂, d, hd, ht, hfaults⟩ := h₂
  simp only [FailsBy, ensures_state_bind, Array.getD_eq_getD_getElem?, hd, Option.getD_some]
  by_cases hcount : d.extent.count = 0
  · rw [if_pos hcount]
    exact (fails_empty h₂ hd ht).mono (hfaults hcount)
  · rw [if_neg hcount]
    exact FailsBy.pure (some x)

theorem fails_gather (h : Borrowed P e₀ e S H) (c : Condition) (segments : List Segment) :
    FailsBy (c.Faults e₀ segments) (Matches.gather c segments) e := by
  induction segments generalizing e S H with
  | nil => exact .pure []
  | cons s rest ih =>
    have hrest : ∀ f, c.Faults e₀ rest f → c.Faults e₀ (s :: rest) f :=
      fun f ⟨t, ht, hf⟩ => ⟨t, List.mem_cons_of_mem s ht, hf⟩
    rw [Matches.gather]
    refine .bind ((h.fails_probe c s).mono fun f hf => ⟨s, List.mem_cons_self, hf⟩) (h.probe c s) ?_
    rintro (_ | x) e₁ h₁
    · exact (ih h₁.held).mono hrest
    · exact .bind ((ih h₁.1.held).mono hrest).orUndo (R := fun _ _ => True) trivial
        fun found _ _ => .pure _

theorem fails_openAs (h : Borrowed P e₀ e S H) (c : Condition) (memtable : Option CursorId)
    (segments : List Segment) :
    FailsBy (c.Faults e₀ segments) (Matches.openAs c memtable segments) e := by
  rw [Matches.openAs]
  refine .bind (h.fails_gather c segments) (R := fun _ _ => True) trivial fun found e₁ _ => ?_
  refine (pushes_union (found.map (fun p => some p.1) ++ [memtable]) e₁).bind ?_ fun _ _ h => h.elim
  rintro (_ | m) e₂ -
  · exact FailsBy.pure none
  · simp only [ensures_state_bind, ensures_map, ensures_openAs]
    rintro _ ⟨⟩

theorem fails_searchMemtable (id : IndexId) (c : Condition) (e : Engine) :
    FailsBy ValueType.Incomparable (Catalog.searchMemtable id c) e := by
  rw [FailsBy, Catalog.searchMemtable, ensures_get_bind]
  cases e.indexes[id]? with
  | none => rintro _ ⟨⟩
  | some index =>
    refine FailsBy.bind (.settle (index.memtable.comparing_search c)) (R := fun _ _ => True) trivial
      fun tokens e₁ _ => ?_
    rw [FailsBy]
    split
    · rintro _ ⟨⟩
    · rw [ensures_map]
      rintro _ ⟨⟩

theorem fails_openMatches (h : Borrowed P e₀ e S H) (d : Candidate) :
    FailsBy (fun f => ValueType.Incomparable f ∨ d.condition.Faults e₀ d.segments f)
      (Session.openMatches d) e := by
  rw [Session.openMatches]
  cases d.condition.index with
  | none => exact (h.fails_openAs _ none _).mono fun _ => .inr
  | some index =>
    refine .bind ((fails_searchMemtable index _ e).mono fun _ => .inl)
      (h.searchMemtable index d.condition) ?_
    rintro (_ | x) e₁ h₁
    · obtain rfl : e₁ = e := h₁
      exact (h.fails_openAs _ none _).mono fun _ => .inr
    · exact (h₁.1.held.fails_openAs _ (some x) _).mono fun _ => .inr

theorem fails_openAll (h : Borrowed (fun _ => True) e₀ e S H) (cands : List Candidate) :
    FailsBy (Candidate.Faults e₀ cands) (Session.openAll cands) e := by
  induction cands generalizing e S H with
  | nil => exact .pure []
  | cons d rest ih =>
    have hrest : ∀ f, Candidate.Faults e₀ rest f → Candidate.Faults e₀ (d :: rest) f :=
      fun f => Or.imp_right fun ⟨d', hd', hf⟩ => ⟨d', List.mem_cons_of_mem d hd', hf⟩
    rw [Session.openAll]
    refine .bind ((h.fails_openMatches d).mono fun f hf =>
      hf.imp_right fun hf => ⟨d, List.mem_cons_self, hf⟩) (h.openMatches d fun _ _ => trivial) ?_
    rintro (_ | x) e₁ h₁
    · exact (ih h₁.held).mono hrest
    · exact .bind ((ih h₁.1.held).mono hrest).orUndo (R := fun _ _ => True) trivial
        fun ids _ _ => .pure _

end Loan.Borrowed
end SecondaryIndex
