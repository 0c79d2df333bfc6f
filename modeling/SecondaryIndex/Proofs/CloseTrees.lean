import SecondaryIndex.Proofs.Serving.Closing
import SecondaryIndex.Proofs.Stream.Extents

namespace SecondaryIndex

open Cursor

/-- What each step in turn brings about, in the state that those before it leave. -/
def Act.traces {α β : Type} (step : α → Act Unit) (trace : α → Engine → List β) :
    List α → Engine → List β
  | [], _ => []
  | a :: rest, e => trace a e ++ traces step trace rest (step a e).2

theorem Act.all_cons_apply {α : Type} (step : α → Act Unit) (a : α) (rest : List α) (e : Engine) :
    Act.all step (a :: rest) e =
      ((step a e).1 >>= fun _ => (Act.all step rest (step a e).2).1,
        (Act.all step rest (step a e).2).2) := by
  rw [Act.all]
  simp only [bind_apply, attempt_apply, settle_apply]
  cases (step a e).1 <;> rfl

namespace Cursor

/-- The cursors whose close is called when one is closed, in the order of the calls. -/
def closings : Nat → CursorId → Engine → List CursorId
  | 0, _, _ => []
  | depth + 1, id, e =>
    let c := e.cursors.getD id .empty
    let counted := { e with cursors := Loan.closed e.cursors id }
    id :: match c.source with
      | .tokens .. => []
      | .union children | .intersection children =>
        if c.closes = 0 then
          Act.traces (closeWithin depth) (closings depth) children counted
        else []
      | .matches merged _ => if c.closes = 0 then closings depth merged counted else []

theorem cursors_all {step : CursorId → Act Unit} {trace : CursorId → Engine → List CursorId}
    (h : ∀ id e, (step id e).2.cursors = Loan.closedAll e.cursors (trace id e))
    (ids : List CursorId) (e : Engine) :
    (Act.all step ids e).2.cursors = Loan.closedAll e.cursors (Act.traces step trace ids e) := by
  induction ids generalizing e with
  | nil => rfl
  | cons id rest ih =>
    rw [Act.all_cons_apply, Act.traces, Loan.closedAll_append, ← h]
    exact ih _

theorem cursors_closeWithin (depth : Nat) (id : CursorId) (e : Engine) :
    (closeWithin depth id e).2.cursors = Loan.closedAll e.cursors (closings depth id e) := by
  induction depth generalizing id e with
  | zero => rfl
  | succ depth ih =>
    change Ensures (closeWithin (depth + 1) id) e fun _ e' => e'.cursors = _
    rw [ensures_closeWithin, closings]
    generalize e.cursors.getD id .empty = c
    rcases c with ⟨_, source, _, _, calls⟩
    simp only [closeSource]
    rcases source with ⟨_, _ | _, _⟩ | children | children | ⟨merged, segments⟩
    · rfl
    · rfl
    · by_cases hopen : calls = 0
      · simp only [if_pos hopen]
        exact cursors_all ih children _
      · simp only [if_neg hopen]
        rfl
    · by_cases hopen : calls = 0
      · simp only [if_pos hopen]
        exact cursors_all ih children _
      · simp only [if_neg hopen]
        rfl
    · by_cases hopen : calls = 0
      · simp only [if_pos hopen]
        refine Ensures.attempt_bind (R := fun _ e' => e'.cursors = _) (ih merged _) ?_
        intro result e₁ he₁
        refine (Segment.cursors_releaseAll segments e₁).bind_ok fun e₂ he₂ => ?_
        rw [Act.ensures_settle, he₂, he₁]
        rfl
      · simp only [if_neg hopen]
        rfl

end Cursor

namespace Cursor

/-- Closes one cursor after the other, whatever comes of it. -/
def closeEach : List CursorId → Engine → List (Except Fault Unit) × Engine
  | [], e => ([], e)
  | id :: rest, e =>
    let (result, e') := close id e
    let (results, e'') := closeEach rest e'
    (result :: results, e'')

theorem closeEach_cons (id : CursorId) (rest : List CursorId) (e : Engine) :
    closeEach (id :: rest) e = ((close id e).1 :: (closeEach rest (close id e).2).1,
      (closeEach rest (close id e).2).2) := rfl

theorem closeEach_append (ids ids' : List CursorId) (e : Engine) :
    closeEach (ids ++ ids') e =
      ((closeEach ids e).1 ++ (closeEach ids' (closeEach ids e).2).1,
        (closeEach ids' (closeEach ids e).2).2) := by
  induction ids generalizing e with
  | nil => rfl
  | cons id rest ih => rw [List.cons_append, closeEach_cons, closeEach_cons, ih, List.cons_append]

theorem length_closeEach (ids : List CursorId) (e : Engine) :
    (closeEach ids e).1.length = ids.length := by
  induction ids generalizing e with
  | nil => rfl
  | cons id rest ih => rw [closeEach_cons, List.length_cons, List.length_cons, ih]

theorem closeEach_last {n : Nat} {x : CursorId} {e e' : Engine}
    {results : List (Except Fault Unit)}
    (h : closeEach (List.replicate (n + 1) x) e = (results, e')) :
    (closeEach (List.replicate n x) e).1 = results.take n ∧
      (closeQuietly [x] (closeEach (List.replicate n x) e).2).2 = e' := by
  rw [List.replicate_succ', closeEach_append] at h
  obtain ⟨rfl, rfl⟩ := Prod.mk.inj h
  refine ⟨?_, rfl⟩
  have hlength := length_closeEach (List.replicate n x) e
  rw [List.length_replicate] at hlength
  rw [List.take_append_of_le_length hlength.ge, List.take_of_length_le hlength.le]

/-- All calls of close that come of closing one cursor after the other. -/
def calls : List CursorId → Engine → List CursorId :=
  Act.traces close fun id => closings (id + 1) id

end Cursor

theorem Segment.release_withCursors (s : Segment) (e : Engine) (cursors : Array Cursor) :
    s.release { e with cursors } = ((s.release e).1, { (s.release e).2 with cursors }) := by
  have hrefs : ({ e with cursors } : Engine).refs s = e.refs s := rfl
  rw [release_apply, release_apply, hrefs]
  split
  · rfl
  · dsimp only
    split
    · rw [closed_eq, closed_eq]
      rfl
    · rfl

theorem Segment.releaseAll_withCursors (segments : List Segment) (e : Engine)
    (cursors : Array Cursor) :
    releaseAll segments { e with cursors } =
      (.ok (), { (releaseAll segments e).2 with cursors }) := by
  induction segments generalizing e with
  | nil => rfl
  | cons s rest ih =>
    change releaseAll rest (s.release { e with cursors }).2 = _
    rw [release_withCursors]
    exact ih _

theorem Segment.releaseAll_append (segments segments' : List Segment) (e : Engine) :
    releaseAll (segments ++ segments') e = releaseAll segments' (releaseAll segments e).2 := by
  induction segments generalizing e with
  | nil => rfl
  | cons s rest ih => exact ih _

/-- The engine after these calls of close and these releases. -/
def Engine.closedDown (e : Engine) (ids : List CursorId) (segments : List Segment) : Engine :=
  { (Segment.releaseAll segments e).2 with cursors := Loan.closedAll e.cursors ids }

theorem Segment.releaseAll_snd (segments : List Segment) (e : Engine) :
    (releaseAll segments e).2 = e.closedDown [] segments :=
  congrArg Prod.snd (releaseAll_withCursors segments e e.cursors)

theorem Engine.closedDown_append (e : Engine) (ids ids' : List CursorId)
    (segments segments' : List Segment) :
    (e.closedDown ids segments).closedDown ids' segments' =
      e.closedDown (ids ++ ids') (segments ++ segments') := by
  simp only [closedDown, Segment.releaseAll_withCursors, Segment.releaseAll_append,
    Loan.closedAll_append]

theorem Engine.cursors_closedDown (e : Engine) (ids : List CursorId) (segments : List Segment) :
    (e.closedDown ids segments).cursors = Loan.closedAll e.cursors ids := rfl

/-- Cursors that are closed together. Nothing below a leaf is to be closed any more. -/
inductive CloseTree
  | leaf (id : CursorId)
  | merge (id : CursorId) (parts : List CloseTree)
  | «matches» (id : CursorId) (part : CloseTree) (segments : List Segment)

namespace CloseTree

/-- What holds of leaves, and of what merges or reads trees of which it holds, holds of every
tree. -/
@[elab_as_elim]
theorem induct {P : CloseTree → Prop} (leaf : ∀ id, P (leaf id))
    (merge : ∀ id parts, (∀ t ∈ parts, P t) → P (merge id parts))
    («matches» : ∀ id part segments, P part → P (.matches id part segments)) (t : CloseTree) :
    P t :=
  t.rec leaf merge «matches» (fun _ => List.not_mem_nil.elim)
    fun _ _ ht hrest => List.forall_mem_cons.2 ⟨ht, hrest⟩

def root : CloseTree → CursorId
  | leaf id => id
  | merge id _ => id
  | .matches id _ _ => id

mutual

/-- All cursors of a tree, each before those below it. -/
def members : CloseTree → List CursorId
  | leaf id => [id]
  | merge id parts => id :: allMembers parts
  | .matches id part _ => id :: part.members

def allMembers : List CloseTree → List CursorId
  | [] => []
  | t :: rest => t.members ++ allMembers rest

end

mutual

def leaves : CloseTree → List CursorId
  | leaf id => [id]
  | merge _ parts => allLeaves parts
  | .matches _ part _ => part.leaves

def allLeaves : List CloseTree → List CursorId
  | [] => []
  | t :: rest => t.leaves ++ allLeaves rest

end

mutual

/-- The segments that are released with a tree, in order. -/
def segments : CloseTree → List Segment
  | leaf _ => []
  | merge _ parts => allSegments parts
  | .matches _ part segments => part.segments ++ segments

def allSegments : List CloseTree → List Segment
  | [] => []
  | t :: rest => t.segments ++ allSegments rest

end

mutual

/-- The cursors are merged as the tree says, and none that merges others has been closed. -/
def Stands (cs : Array Cursor) : CloseTree → Prop
  | leaf id => ∃ c, cs[id]? = some c ∧ (c.source.isTokens = true ∨ c.closes ≠ 0)
  | merge id parts => (∃ c, cs[id]? = some c ∧ c.closes = 0 ∧
      (c.source = .union (parts.map root) ∨ c.source = .intersection (parts.map root))) ∧
      (∀ t ∈ parts, t.root < id) ∧ AllStand cs parts
  | .matches id part segments => (∃ c, cs[id]? = some c ∧ c.closes = 0 ∧
      c.source = .matches part.root segments) ∧ part.root < id ∧ part.Stands cs

def AllStand (cs : Array Cursor) : List CloseTree → Prop
  | [] => True
  | t :: rest => t.Stands cs ∧ AllStand cs rest

end

def report (cs : Array Cursor) (ids : List CursorId) : Except Fault Unit :=
  match ids.findSome? fun id => (cs.getD id .empty).source.closeFault with
  | none => .ok ()
  | some f => .error f

theorem report_append (cs : Array Cursor) (ids ids' : List CursorId) :
    report cs (ids ++ ids') = (report cs ids >>= fun _ => report cs ids') := by
  unfold report
  rw [List.findSome?_append]
  cases ids.findSome? fun id => (cs.getD id .empty).source.closeFault <;> rfl

variable {t : CloseTree} {ts : List CloseTree} {cs cs' : Array Cursor} {x : CursorId} {e : Engine}

theorem root_mem_members (t : CloseTree) : t.root ∈ t.members := by
  cases t <;> exact List.mem_cons_self

theorem allMembers_eq (ts : List CloseTree) : allMembers ts = ts.flatMap members := by
  induction ts with
  | nil => rfl
  | cons t rest ih => rw [allMembers, ih, List.flatMap_cons]

theorem allSegments_eq (ts : List CloseTree) : allSegments ts = ts.flatMap segments := by
  induction ts with
  | nil => rfl
  | cons t rest ih => rw [allSegments, ih, List.flatMap_cons]

theorem allMembers_leaves (ids : List CursorId) : allMembers (ids.map leaf) = ids := by
  rw [allMembers_eq, List.flatMap_map]
  exact List.flatMap_singleton' ids

theorem mem_allMembers : x ∈ allMembers ts ↔ ∃ t ∈ ts, x ∈ t.members := by
  rw [allMembers_eq, List.mem_flatMap]

theorem allStand_iff : AllStand cs ts ↔ ∀ t ∈ ts, t.Stands cs := by
  induction ts with
  | nil => simp [AllStand]
  | cons t rest ih => rw [AllStand, ih, List.forall_mem_cons]

theorem allLeaves_sublist (h : ∀ t ∈ ts, t.leaves.Sublist t.members) :
    (allLeaves ts).Sublist (allMembers ts) := by
  induction ts with
  | nil => exact .slnil
  | cons t rest ih =>
    rw [List.forall_mem_cons] at h
    exact h.1.append (ih h.2)

theorem leaves_sublist (t : CloseTree) : t.leaves.Sublist t.members := by
  induction t using CloseTree.induct with
  | leaf id => exact .refl _
  | merge id parts ih => exact (allLeaves_sublist ih).cons id
  | «matches» id part segments ih => exact ih.cons id

theorem Stands.congr (h : t.Stands cs) (hcs : ∀ x ∈ t.members, cs'[x]? = cs[x]?) :
    t.Stands cs' := by
  induction t using CloseTree.induct with
  | leaf id =>
    obtain ⟨c, hc, hleaf⟩ := h
    exact ⟨c, (hcs id List.mem_cons_self).trans hc, hleaf⟩
  | merge id parts ih =>
    obtain ⟨⟨c, hc, hs⟩, hbelow, hparts⟩ := h
    rw [members, List.forall_mem_cons] at hcs
    refine ⟨⟨c, hcs.1.trans hc, hs⟩, hbelow, allStand_iff.2 fun t ht => ?_⟩
    exact ih t ht (allStand_iff.1 hparts t ht) fun x hx => hcs.2 x (mem_allMembers.2 ⟨t, ht, hx⟩)
  | «matches» id part segments ih =>
    obtain ⟨⟨c, hc, hs⟩, hbelow, hpart⟩ := h
    rw [members, List.forall_mem_cons] at hcs
    exact ⟨⟨c, hcs.1.trans hc, hs⟩, hbelow, ih hpart hcs.2⟩

theorem report_congr {ids : List CursorId} (hcs : ∀ x ∈ ids, cs'[x]? = cs[x]?) :
    report cs' ids = report cs ids := by
  have hfirst : (ids.findSome? fun id => (cs'.getD id .empty).source.closeFault) =
      ids.findSome? fun id => (cs.getD id .empty).source.closeFault := by
    induction ids with
    | nil => rfl
    | cons x rest ih =>
      rw [List.forall_mem_cons] at hcs
      simp only [List.findSome?_cons, Array.getD_eq_getD_getElem?, hcs.1] at ih ⊢
      rw [ih hcs.2]
  rw [report, report, hfirst]

theorem report_stills (hs : Loan.Stills cs cs') (ids : List CursorId) :
    report cs' ids = report cs ids := by
  have hstill : ∀ (cs : Array Cursor) (x : CursorId), (cs.getD x .empty).source.closeFault =
      ((cs[x]?.map Cursor.still).map (·.source.closeFault)).getD none := by
    intro cs x
    rw [Array.getD_eq_getD_getElem?]
    rcases cs[x]? with _ | ⟨_, source, _, _, _⟩
    · rfl
    · cases source <;> rfl
  have hfault : ∀ x : CursorId, (cs'.getD x .empty).source.closeFault =
      (cs.getD x .empty).source.closeFault := by
    intro x
    rw [hstill, hstill, hs x]
  simp only [report, hfault]

theorem report_leaf {c : Cursor} (hc : cs[x]? = some c) : report cs [x] =
    match c.source.closeFault with
    | none => .ok ()
    | some f => .error f := by
  rw [report, List.findSome?_singleton, Array.getD_eq_getD_getElem?, hc, Option.getD_some]

theorem Stands.lt_size (h : t.Stands cs) : ∀ x ∈ t.members, x < cs.size := by
  induction t using CloseTree.induct with
  | leaf id =>
    obtain ⟨c, hc, -⟩ := h
    exact List.forall_mem_singleton.2 (Array.getElem?_eq_some_iff.1 hc).1
  | merge id parts ih =>
    obtain ⟨⟨c, hc, -⟩, -, hparts⟩ := h
    refine List.forall_mem_cons.2 ⟨(Array.getElem?_eq_some_iff.1 hc).1, fun x hx => ?_⟩
    obtain ⟨t, ht, hx⟩ := mem_allMembers.1 hx
    exact ih t ht (allStand_iff.1 hparts t ht) x hx
  | «matches» id part segments ih =>
    obtain ⟨⟨c, hc, -⟩, -, hpart⟩ := h
    exact List.forall_mem_cons.2 ⟨(Array.getElem?_eq_some_iff.1 hc).1, ih hpart⟩

theorem Stands.stills (h : t.Stands cs) (hs : Loan.Stills cs cs') : t.Stands cs' := by
  induction t using CloseTree.induct with
  | leaf id =>
    obtain ⟨c, hc, hleaf⟩ := h
    obtain ⟨c', hc', hblank, -, hcloses⟩ := hs.of_getElem? hc
    refine ⟨c', hc', ?_⟩
    rwa [← Source.isTokens_blank, hblank, Source.isTokens_blank, hcloses]
  | merge id parts ih =>
    obtain ⟨⟨c, hc, hopen, hsource⟩, hbelow, hparts⟩ := h
    obtain ⟨c', hc', hblank, -, hcloses⟩ := hs.of_getElem? hc
    have hsame : c'.source = c.source := Source.eq_of_blank_eq hblank <| by
      rcases hsource with h | h <;> rw [h] <;> rfl
    exact ⟨⟨c', hc', hcloses.trans hopen, hsame ▸ hsource⟩, hbelow,
      allStand_iff.2 fun t ht => ih t ht (allStand_iff.1 hparts t ht)⟩
  | «matches» id part segments ih =>
    obtain ⟨⟨c, hc, hopen, hsource⟩, hbelow, hpart⟩ := h
    obtain ⟨c', hc', hblank, -, hcloses⟩ := hs.of_getElem? hc
    have hsame : c'.source = c.source := Source.eq_of_blank_eq hblank (by rw [hsource]; rfl)
    exact ⟨⟨c', hc', hcloses.trans hopen, hsame.trans hsource⟩, hbelow, ih hpart⟩

theorem getElem?_closed_of_mem (cs : Array Cursor) {id : CursorId} {ids : List CursorId}
    (h : id ∉ ids) :
    ∀ x ∈ ids, (Loan.closed cs id)[x]? = cs[x]? := by
  intro x hx
  rw [Loan.getElem?_closed, if_neg]
  rintro rfl
  exact h hx

/-- A step that closes each cursor of a tree once, in order. -/
def ClosedBy (step : CursorId → Act Unit) (trace : CursorId → Engine → List CursorId)
    (t : CloseTree) : Prop :=
  ∀ e, t.Stands e.cursors → t.members.Nodup →
    step t.root e = (report e.cursors t.leaves, e.closedDown t.members t.segments) ∧
      trace t.root e = t.members

theorem closed_forest {step : CursorId → Act Unit} {trace : CursorId → Engine → List CursorId}
    (h : ∀ t ∈ ts, ClosedBy step trace t) {e : Engine} (hstands : AllStand e.cursors ts)
    (hnodup : (allMembers ts).Nodup) :
    Act.all step (ts.map root) e =
        (report e.cursors (allLeaves ts), e.closedDown (allMembers ts) (allSegments ts)) ∧
      Act.traces step trace (ts.map root) e = allMembers ts := by
  induction ts generalizing e with
  | nil => exact ⟨rfl, rfl⟩
  | cons t rest ih =>
    rw [List.forall_mem_cons] at h
    rw [allMembers, List.nodup_append] at hnodup
    obtain ⟨hfirst, hrest, hdisjoint⟩ := hnodup
    obtain ⟨hstep, htrace⟩ := h.1 e hstands.1 hfirst
    -- Closing the first tree touches none of the others.
    have hsame : ∀ u ∈ rest, ∀ x ∈ u.members,
        (e.closedDown t.members t.segments).cursors[x]? = e.cursors[x]? := by
      intro u hu x hx
      refine Loan.getElem?_closedAll_of_notMem fun hxt => ?_
      exact hdisjoint x hxt x (mem_allMembers.2 ⟨u, hu, hx⟩) rfl
    have hstands' : AllStand (e.closedDown t.members t.segments).cursors rest :=
      allStand_iff.2 fun u hu => (allStand_iff.1 hstands.2 u hu).congr (hsame u hu)
    have hreport : report (e.closedDown t.members t.segments).cursors (allLeaves rest) =
        report e.cursors (allLeaves rest) := by
      refine report_congr fun x hx => ?_
      have hmember := (allLeaves_sublist fun u _ => u.leaves_sublist).subset hx
      obtain ⟨u, hu, hxu⟩ := mem_allMembers.1 hmember
      exact hsame u hu x hxu
    obtain ⟨hall, htraces⟩ := ih h.2 hstands' hrest
    rw [List.map_cons, Act.all_cons_apply, Act.traces, hstep, htrace, hall, htraces, hreport,
      Engine.closedDown_append, allLeaves, report_append]
    exact ⟨rfl, rfl⟩

section

variable {depth : Nat} {id : CursorId}

/-- Closing a cursor counts the call and then closes what the cursor reads. -/
theorem closeWithin_of_getElem? {c : Cursor} (hc : e.cursors[id]? = some c) :
    closeWithin (depth + 1) id e =
      closeSource depth c { e with cursors := Loan.closed e.cursors id } := by
  have hget : e.cursors.getD id .empty = c := by
    rw [Array.getD_eq_getD_getElem?, hc, Option.getD_some]
  rw [← hget]
  rfl

theorem closings_of_getElem? {c : Cursor} (hc : e.cursors[id]? = some c) :
    closings (depth + 1) id e = id :: match c.source with
      | .tokens .. => []
      | .union children | .intersection children =>
        if c.closes = 0 then Act.traces (closeWithin depth) (closings depth) children
          { e with cursors := Loan.closed e.cursors id } else []
      | .matches merged _ =>
        if c.closes = 0 then closings depth merged { e with cursors := Loan.closed e.cursors id }
        else [] := by
  rw [closings, Array.getD_eq_getD_getElem?, hc, Option.getD_some]

theorem closed_leaf (depth : Nat) (id : CursorId) :
    ClosedBy (closeWithin (depth + 1)) (closings (depth + 1)) (leaf id) := by
  rintro e ⟨c, hc, hleaf⟩ -
  rw [root, leaves, report_leaf hc, closeWithin_of_getElem? hc, closings_of_getElem? hc]
  rcases c with ⟨_, source, _, _, calls⟩
  rcases source with ⟨_, _ | _, _⟩ | _ | _ | _
  · exact ⟨rfl, rfl⟩
  · exact ⟨rfl, rfl⟩
  -- Whatever else is a leaf has been closed before.
  all_goals
    have hclosed : calls ≠ 0 := hleaf.resolve_left Bool.false_ne_true
    simp only [closeSource, if_neg hclosed]
    exact ⟨rfl, rfl⟩

theorem closed_merge {parts : List CloseTree} (hid : id ≤ depth)
    (h : ∀ t ∈ parts, t.root < depth → ClosedBy (closeWithin depth) (closings depth) t) :
    ClosedBy (closeWithin (depth + 1)) (closings (depth + 1)) (merge id parts) := by
  rintro e ⟨⟨c, hc, hopen, hsource⟩, hbelow, hparts⟩ hnodup
  rw [members, List.nodup_cons] at hnodup
  have hsame := getElem?_closed_of_mem e.cursors hnodup.1
  have hstand : AllStand (Loan.closed e.cursors id) parts := allStand_iff.2 fun t ht =>
    (allStand_iff.1 hparts t ht).congr fun x hx => hsame x (mem_allMembers.2 ⟨t, ht, hx⟩)
  obtain ⟨hall, htraces⟩ := closed_forest (e := { e with cursors := Loan.closed e.cursors id })
    (fun t ht => h t ht ((hbelow t ht).trans_le hid)) hstand hnodup.2
  have hreport : report (Loan.closed e.cursors id) (allLeaves parts) =
      report e.cursors (allLeaves parts) :=
    report_congr fun x hx => hsame x ((allLeaves_sublist fun t _ => t.leaves_sublist).subset hx)
  have hcounted : ({ e with cursors := Loan.closed e.cursors id } : Engine).closedDown
      (allMembers parts) (allSegments parts) =
        e.closedDown (id :: allMembers parts) (allSegments parts) :=
    e.closedDown_append [id] _ [] _
  rw [hreport, hcounted] at hall
  rw [root, closeWithin_of_getElem? hc, closings_of_getElem? hc]
  rcases hsource with hsource | hsource <;>
  · simp only [closeSource, hsource, if_pos hopen, hall, htraces]
    exact ⟨rfl, rfl⟩

theorem closed_matches {part : CloseTree} {segments : List Segment} (hid : id ≤ depth)
    (h : part.root < depth → ClosedBy (closeWithin depth) (closings depth) part) :
    ClosedBy (closeWithin (depth + 1)) (closings (depth + 1)) (.matches id part segments) := by
  rintro e ⟨⟨c, hc, hopen, hsource⟩, hbelow, hpart⟩ hnodup
  rw [members, List.nodup_cons] at hnodup
  have hsame := getElem?_closed_of_mem e.cursors hnodup.1
  obtain ⟨hclosed, htrace⟩ := h (hbelow.trans_le hid)
    { e with cursors := Loan.closed e.cursors id } (hpart.congr hsame) hnodup.2
  have hreport : report (Loan.closed e.cursors id) part.leaves = report e.cursors part.leaves :=
    report_congr fun x hx => hsame x (part.leaves_sublist.subset hx)
  have hcounted : (Segment.releaseAll segments
      (({ e with cursors := Loan.closed e.cursors id } : Engine).closedDown part.members
        part.segments)).2 = e.closedDown (id :: part.members) (part.segments ++ segments) := by
    rw [Segment.releaseAll_snd, Engine.closedDown_append, List.append_nil]
    exact e.closedDown_append [id] _ [] _
  rw [root, closeWithin_of_getElem? hc, closings_of_getElem? hc]
  simp only [closeSource, hsource, if_pos hopen, htrace]
  refine ⟨Ensures.eq ?_, rfl⟩
  refine Ensures.attempt_bind (R := fun r e' => r = report e.cursors part.leaves ∧
    e' = ({ e with cursors := Loan.closed e.cursors id } : Engine).closedDown part.members
      part.segments) ?_ ?_
  · rw [Ensures, hclosed, hreport]
    exact ⟨rfl, rfl⟩
  · rintro _ _ ⟨rfl, rfl⟩
    refine Ensures.bind_ok (P := fun e' => e' = e.closedDown (id :: part.members)
      (part.segments ++ segments)) ⟨Act.allQuietly_fst _ _ _, hcounted⟩ ?_
    rintro _ rfl
    exact Act.ensures_settle.2 ⟨rfl, rfl⟩

theorem closed_within (t : CloseTree) (hdepth : t.root < depth) :
    ClosedBy (closeWithin depth) (closings depth) t := by
  induction t using CloseTree.induct generalizing depth with
  | leaf id =>
    obtain ⟨depth, rfl⟩ := Nat.exists_eq_add_one_of_ne_zero (Nat.ne_zero_of_lt hdepth)
    exact closed_leaf depth id
  | merge id parts ih =>
    obtain ⟨depth, rfl⟩ := Nat.exists_eq_add_one_of_ne_zero (Nat.ne_zero_of_lt hdepth)
    exact closed_merge (Nat.le_of_lt_succ hdepth) fun t ht hroot => ih t ht hroot
  | «matches» id part segments ih =>
    obtain ⟨depth, rfl⟩ := Nat.exists_eq_add_one_of_ne_zero (Nat.ne_zero_of_lt hdepth)
    exact closed_matches (Nat.le_of_lt_succ hdepth) ih

end

theorem closed_by_close (t : CloseTree) :
    ClosedBy Cursor.close (fun id => closings (id + 1) id) t :=
  fun e => t.closed_within (Nat.lt_succ_self t.root) e

theorem closed_all (hstands : AllStand e.cursors ts) (hnodup : (allMembers ts).Nodup) :
    Cursor.closeAll (ts.map root) e =
        (report e.cursors (allLeaves ts), e.closedDown (allMembers ts) (allSegments ts)) ∧
      Cursor.calls (ts.map root) e = allMembers ts :=
  closed_forest (fun t _ => t.closed_by_close) hstands hnodup

/-- Once it has been closed, a merge counts further calls and does nothing else. -/
theorem closed_again {c : Cursor} (hc : e.cursors[x]? = some c)
    (hsource : c.source.isTokens = false) (hclosed : c.closes ≠ 0) (n : Nat) :
    Cursor.closeEach (List.replicate n x) e =
        (List.replicate n (.ok ()), e.closedDown (List.replicate n x) []) ∧
      Cursor.calls (List.replicate n x) e = List.replicate n x := by
  induction n generalizing e c with
  | zero => exact ⟨rfl, rfl⟩
  | succ n ih =>
    obtain ⟨hclose, hcalls⟩ := (leaf x).closed_by_close e ⟨c, hc, .inr hclosed⟩
      (List.nodup_singleton x)
    have hquiet : report e.cursors [x] = .ok () := by
      rw [report_leaf hc]
      rcases c with ⟨_, source, _, _, _⟩
      cases source with
      | tokens => cases hsource
      | union | intersection | «matches» => rfl
    have hc' : (e.closedDown [x] []).cursors[x]? = some { c with closes := c.closes + 1 } := by
      rw [Engine.cursors_closedDown, Loan.getElem?_closedAll, hc, List.count_singleton_self]
      rfl
    obtain ⟨hrest, hrestCalls⟩ := ih hc' hsource (Nat.succ_ne_zero _)
    change Cursor.close x e = (report e.cursors [x], e.closedDown [x] []) at hclose
    rw [hquiet] at hclose
    have hlater := e.closedDown_append [x] (List.replicate n x) [] []
    constructor
    · rw [List.replicate_succ, Cursor.closeEach_cons, hclose, hrest, hlater, List.replicate_succ]
      rfl
    · change closings (x + 1) x e ++ Cursor.calls (List.replicate n x) (Cursor.close x e).2 = _
      rw [hclose, hrestCalls]
      change closings (x + 1) x e = [x] at hcalls
      rw [hcalls]
      rfl

theorem closed_repeatedly {c : Cursor} (hstands : t.Stands e.cursors) (hnodup : t.members.Nodup)
    (hc : e.cursors[t.root]? = some c) (hsource : c.source.isTokens = false) (n : Nat) :
    Cursor.closeEach (List.replicate (n + 1) t.root) e =
        (report e.cursors t.leaves :: List.replicate n (.ok ()),
          e.closedDown (t.members ++ List.replicate n t.root) t.segments) ∧
      Cursor.calls (List.replicate (n + 1) t.root) e = t.members ++ List.replicate n t.root := by
  obtain ⟨hclose, hcalls⟩ := t.closed_by_close e hstands hnodup
  have hc' : (e.closedDown t.members t.segments).cursors[t.root]? =
      some { c with closes := c.closes + 1 } := by
    rw [Engine.cursors_closedDown, Loan.getElem?_closedAll, hc,
      List.count_eq_one_of_mem hnodup t.root_mem_members]
    rfl
  obtain ⟨hrest, hrestCalls⟩ := closed_again hc' hsource (Nat.succ_ne_zero _) n
  have hlater := e.closedDown_append t.members (List.replicate n t.root) t.segments []
  rw [List.append_nil] at hlater
  constructor
  · rw [List.replicate_succ, Cursor.closeEach_cons, hclose, hrest, hlater]
  · change closings (t.root + 1) t.root e ++
      Cursor.calls (List.replicate n t.root) (Cursor.close t.root e).2 = _
    rw [hclose, hrestCalls]
    exact congrArg (· ++ List.replicate n t.root) hcalls

theorem within_meet {x y : Extent} {token : Token}
    (h : (x.meet y).low ≤ token ∧ token ≤ (x.meet y).high) :
    (x.low ≤ token ∧ token ≤ x.high) ∧ (y.low ≤ token ∧ token ≤ y.high) := by
  rw [Extent.meet] at h
  dsimp only at h
  split at h <;> split at h <;> refine ⟨⟨?_, ?_⟩, ?_, ?_⟩ <;> lia

theorem within_foldl_meet {xs : List Extent} {x : Extent} {token : Token}
    (h : (xs.foldl Extent.meet x).low ≤ token ∧ token ≤ (xs.foldl Extent.meet x).high) :
    ∀ y ∈ x :: xs, y.low ≤ token ∧ token ≤ y.high := by
  induction xs generalizing x with
  | nil => exact List.forall_mem_singleton.2 h
  | cons z rest ih =>
    have hrest := ih h
    rw [List.forall_mem_cons] at hrest ⊢
    obtain ⟨hx, hz⟩ := within_meet hrest.1
    exact ⟨hx, List.forall_mem_cons.2 ⟨hz, hrest.2⟩⟩

/-- Inputs without a common token turn the range of an intersection around. -/
theorem high_lt_low {m : Merge} (hsummed : m.Summed cs) (hand : m.connective = .and)
    (hne : m.inputs ≠ []) (hdisjoint : ∀ token, ∃ y ∈ m.inputs,
      ¬ ((Merge.extentOf cs y).low ≤ token ∧ token ≤ (Merge.extentOf cs y).high)) :
    m.extent.high < m.extent.low := by
  obtain ⟨x, rest, hinputs⟩ := List.exists_cons_of_ne_nil hne
  have hextent := hsummed x rest hinputs
  rw [hand] at hextent
  by_contra hle
  -- The lower end would be a token of all of them.
  have hlow : ∀ y ∈ (x :: rest).map (Merge.extentOf cs),
      y.low ≤ m.extent.low ∧ m.extent.low ≤ y.high := by
    refine within_foldl_meet ?_
    change m.extent = List.foldl Extent.meet _ _ at hextent
    rw [← hextent]
    exact ⟨le_rfl, not_lt.1 hle⟩
  obtain ⟨y, hy, hout⟩ := hdisjoint m.extent.low
  rw [hinputs] at hy
  exact hout (hlow _ (List.mem_map_of_mem hy))

/-- What an intersection closes instead of merging it. -/
theorem build_disjoint {m : Merge} (hstands : AllStand e.cursors ts)
    (hnodup : (allMembers ts).Nodup) (hinputs : m.inputs = ts.map root)
    (hand : m.connective = .and) (htwo : 2 ≤ ts.length)
    (hextent : m.extent.high < m.extent.low) : m.build e =
      let down := e.closedDown (allMembers ts) (allSegments ts)
      match report e.cursors (allLeaves ts) with
      | .ok _ => (.ok (some e.cursors.size),
          { down with cursors := down.cursors.push Cursor.empty })
      | .error f => (.error f, down) := by
  have hclose := (closed_all hstands hnodup).1
  rw [← hinputs] at hclose
  rcases ts with _ | ⟨t, _ | ⟨u, rest⟩⟩
  · cases htwo
  · exact absurd htwo (by simp)
  have hbuild : m.build = some <$> m.combine := by
    rw [Merge.build, hinputs]
    rfl
  refine Ensures.eq ?_
  rw [hbuild, ensures_map, Merge.combine, hand]
  simp only [if_pos hextent]
  rw [ensures_bind, Ensures, hclose]
  cases report e.cursors (allLeaves (t :: u :: rest)) with
  | error f => exact ⟨rfl, rfl⟩
  | ok _ =>
    have hsize : (e.closedDown (allMembers (t :: u :: rest))
        (allSegments (t :: u :: rest))).cursors.size = e.cursors.size :=
      (Loan.closes_closedAll _ _).size
    refine ensures_openAs.2 ⟨?_, rfl⟩
    rw [hsize]

theorem filter_mem_of_sublist {ids ids' : List CursorId} (h : ids.Sublist ids')
    (hnodup : ids'.Nodup) : ids'.filter (· ∈ ids) = ids := by
  induction h with
  | slnil => rfl
  | cons y h ih =>
    rw [List.nodup_cons] at hnodup
    rw [List.filter_cons_of_neg (by simpa using fun hy => hnodup.1 (h.subset hy)), ih hnodup.2]
  | cons_cons y h ih =>
    rw [List.nodup_cons] at hnodup
    rw [List.filter_cons_of_pos (by simp)]
    refine congrArg (y :: ·) (Eq.trans (List.filter_congr fun z hz => ?_) (ih hnodup.2))
    have hzy : z ≠ y := fun h => hnodup.1 (h ▸ hz)
    simp [hzy]

/-- However often the merge of some trees is closed, it closes each leaf once, in order, and only
the first call can fail. An intersection that is not built for want of common tokens, and a merge
that is given up, close each tree once as well. -/
theorem closed_once (hstands : AllStand e.cursors ts) (hnodup : (allMembers ts).Nodup) :
    (∀ id, (merge id ts).Stands e.cursors → id ∉ allMembers ts → ∀ n,
      closeEach (List.replicate (n + 1) id) e =
          (report e.cursors (allLeaves ts) :: List.replicate n (.ok ()),
            e.closedDown (id :: allMembers ts ++ List.replicate n id) (allSegments ts)) ∧
        (calls (List.replicate (n + 1) id) e).filter (· ∈ allLeaves ts) = allLeaves ts) ∧
      (∀ m : Merge, m.inputs = ts.map root → m.connective = .and → m.Summed e.cursors →
        2 ≤ ts.length → (∀ token, ∃ t ∈ ts, ¬ ((Merge.extentOf e.cursors t.root).low ≤ token ∧
          token ≤ (Merge.extentOf e.cursors t.root).high)) →
        m.build e =
          let down := e.closedDown (allMembers ts) (allSegments ts)
          match report e.cursors (allLeaves ts) with
          | .ok _ => (.ok (some e.cursors.size),
              { down with cursors := down.cursors.push Cursor.empty })
          | .error f => (.error f, down)) ∧
      ∀ m : Merge, m.inputs = ts.map root →
        m.close e =
            (report e.cursors (allLeaves ts), e.closedDown (allMembers ts) (allSegments ts)) ∧
          m.shut e = (.ok (report e.cursors (allLeaves ts), { m with inputs := [] }),
            e.closedDown (allMembers ts) (allSegments ts)) ∧
          (calls m.inputs e).filter (· ∈ allLeaves ts) = allLeaves ts ∧
          ∀ e', ({ m with inputs := [] } : Merge).close e' = (.ok (), e') := by
  have hleaves : (allMembers ts).filter (· ∈ allLeaves ts) = allLeaves ts :=
    filter_mem_of_sublist (allLeaves_sublist fun t _ => t.leaves_sublist) hnodup
  refine ⟨fun id hmerge hid n => ?_, fun m hinputs hand hsummed htwo hdisjoint => ?_,
    fun m hinputs => ?_⟩
  · obtain ⟨c, hc, -, hsource⟩ := hmerge.1
    have htokens : c.source.isTokens = false := by rcases hsource with h | h <;> rw [h] <;> rfl
    obtain ⟨hclose, hcalls⟩ :=
      closed_repeatedly hmerge (List.nodup_cons.2 ⟨hid, hnodup⟩) hc htokens n
    refine ⟨hclose, ?_⟩
    have hnot : id ∉ allLeaves ts := fun h =>
      hid ((allLeaves_sublist fun t _ => t.leaves_sublist).subset h)
    change calls (List.replicate (n + 1) id) e = (id :: allMembers ts) ++ List.replicate n id
      at hcalls
    rw [hcalls, List.filter_append, List.filter_cons_of_neg (by simpa using hnot), hleaves,
      List.filter_replicate_of_neg (by simpa using hnot), List.append_nil]
  · refine build_disjoint hstands hnodup hinputs hand htwo (high_lt_low hsummed hand ?_ ?_)
    · rintro hnil
      rw [hinputs, List.map_eq_nil_iff] at hnil
      rw [hnil] at htwo
      cases htwo
    · intro token
      obtain ⟨t, ht, hout⟩ := hdisjoint token
      exact ⟨t.root, hinputs ▸ List.mem_map_of_mem ht, hout⟩
  · obtain ⟨hclose, hcalls⟩ := closed_all hstands hnodup
    rw [m.close_eq, m.shut_eq, hinputs, hcalls, hclose]
    exact ⟨rfl, rfl, hleaves, fun e' => rfl⟩

/-- A union with a leaf that fails, and a leaf beyond it that fails as well. -/
def nested : Engine where
  cursors := #[.ofTokens [1] (some (.device "first")) none, .ofTokens [2] none none,
    { extent := ⟨1, 2, 2⟩, source := .union [0, 1] }, .ofTokens [5] (some (.device "second")) none,
    { extent := ⟨1, 5, 1⟩, source := .intersection [2, 3] }]

def nestedParts : List CloseTree := [merge 2 [leaf 0, leaf 1], leaf 3]

theorem nested_closed_once :
    (closeEach [4, 4, 4] nested).1 = [.error (.device "first"), .ok (), .ok ()] ∧
      (closeEach [4, 4, 4] nested).2.cursors.toList.map Cursor.closes = [1, 1, 1, 1, 3] ∧
      (calls [4, 4, 4] nested).filter (· ∈ [0, 1, 3]) = [0, 1, 3] ∧
      (({ connective := .and, inputs := [2, 3], extent := ⟨5, 2, 1⟩ } : Merge).build nested).1 =
        .error (.device "first") ∧
      (({ connective := .or, inputs := [2, 3] } : Merge).shut nested).1 =
        .ok (.error (.device "first"), { connective := .or }) := by
  have hstands : AllStand nested.cursors nestedParts :=
    ⟨⟨⟨_, rfl, rfl, .inl rfl⟩, by decide, ⟨_, rfl, .inl rfl⟩, ⟨_, rfl, .inl rfl⟩, trivial⟩,
      ⟨_, rfl, .inl rfl⟩, trivial⟩
  obtain ⟨hroot, hbuild, hgiven⟩ := closed_once hstands (by decide)
  obtain ⟨-, hshut, -⟩ := hgiven { connective := .or, inputs := [2, 3] } rfl
  obtain ⟨hclose, hcalls⟩ := hroot 4 ⟨⟨_, rfl, rfl, .inr rfl⟩, by decide, hstands⟩ (by decide) 2
  have hbuilt := hbuild { connective := .and, inputs := [2, 3], extent := ⟨5, 2, 1⟩ } rfl rfl
    (by rintro x rest ⟨⟩; rfl) (by decide) fun token => ?_
  · have hthrice : List.replicate (2 + 1) 4 = [4, 4, 4] := rfl
    rw [hthrice] at hclose hcalls
    rw [hclose, hbuilt, hshut]
    exact ⟨rfl, rfl, hcalls, rfl, rfl⟩
  · by_cases hlow : token ≤ 2
    · exact ⟨leaf 3, by simp [nestedParts], fun h => absurd (h.1.trans hlow) (by decide)⟩
    · exact ⟨merge 2 [leaf 0, leaf 1], by simp [nestedParts], fun h => hlow h.2⟩

end CloseTree
end SecondaryIndex
