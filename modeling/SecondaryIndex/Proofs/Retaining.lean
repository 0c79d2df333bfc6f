import SecondaryIndex.Proofs.Frame
import SecondaryIndex.Proofs.Releasing
import SecondaryIndex.Segment.Search

namespace SecondaryIndex

namespace SegmentState

def left (n : Nat) (state : SegmentState) : SegmentState where
  reader := if n = 0 ∧ state.refs ≠ 0 then
    { state.reader with closes := state.reader.closes + 1 } else state.reader
  refs := n

theorem left_refs (state : SegmentState) : state.left state.refs = state := by
  rw [left, if_neg fun h => h.2 h.1]

end SegmentState

namespace Segment

inductive Call
  | retain
  | release
  | search (c : Condition)

inductive Answer
  | retained (alive : Bool)
  | released
  | found (cursor : Option CursorId)
  deriving DecidableEq

namespace Call

def on (s : Segment) : Call → Act Answer
  | retain => .retained <$> s.retain
  | release => (fun _ => .released) <$> s.release
  | search c => .found <$> s.search c

/-- The references on a segment after a call. Once there are none, none come back. -/
def references (n : Nat) : Call → Nat
  | retain => if n = 0 then 0 else n + 1
  | release => n - 1
  | search _ => n

/-- The answer of a segment with this reader. A cursor that the reader gives is opened as `next`. -/
def answer (reader : Reader) (next : CursorId) : Call → Except Fault Answer
  | retain => .ok (.retained true)
  | release => .ok .released
  | search c => (reader.search c).map fun found => .found (found.map fun _ => next)

def refusal (s : Segment) : Call → Except Fault Answer
  | retain => .ok (.retained false)
  | release => .error (.unreferencedSegment s.text)
  | search _ => .error (.searchAfterRelease s.text)

theorem references_zero (call : Call) : call.references 0 = 0 := by cases call <;> rfl

end Call

/-- Makes one call after the other, whatever comes of them. -/
def calls (s : Segment) : List Call → Engine → List (Except Fault Answer) × Engine
  | [], e => ([], e)
  | call :: rest, e =>
    let (answer, e') := call.on s e
    let (answers, e'') := calls s rest e'
    (answer :: answers, e'')

theorem search_of_unreferenced {s : Segment} {e : Engine} (h : e.refs s = 0) (c : Condition) :
    s.search c e = (.error (.searchAfterRelease s.text), e) := by
  refine Ensures.eq ?_
  rw [Engine.refs] at h
  rw [search, ensures_get_bind]
  cases hs : e.segment? s with
  | none => exact ⟨rfl, rfl⟩
  | some state =>
    rw [hs, Option.map_some, Option.getD_some] at h
    simp only [if_pos h, ensures_throw_bind, and_self]

theorem Call.on_of_unreferenced {s : Segment} {e : Engine} (h : e.refs s = 0) (call : Call) :
    call.on s e = (call.refusal s, e) := by
  cases call with
  | retain =>
    rw [on, ← bind_pure_comp, Act.bind_apply, retain_apply, if_pos h]
    rfl
  | release =>
    rw [on, ← bind_pure_comp, Act.bind_apply, release_apply, if_pos h]
    rfl
  | search c =>
    rw [on, ← bind_pure_comp, Act.bind_apply, search_of_unreferenced h]
    rfl

/-- What calls on `s` make of `e`, if they leave `n` references of those in `state`. -/
structure Lived (s : Segment) (state : SegmentState) (n : Nat) (e e' : Engine) : Prop where
  /-- A segment without references gets none. -/
  alive : n ≠ 0 → state.refs ≠ 0
  segment : e'.segment? s = some (state.left n)
  others : ∀ t : Segment, t.id ≠ s.id → e'.segment? t = e.segment? t
  file : ∀ f, e'.file f = { e.file f with
    refs := (e.file f).refs - if n = 0 ∧ state.refs ≠ 0 ∧ s.file.id = f.id then 1 else 0 }
  frame : Frame e e'
  cursors : ∃ opened : List Cursor, e'.cursors.toList = e.cursors.toList ++ opened ∧
    ∀ c ∈ opened, ∃ tokens closeFault, c = .ofTokens tokens closeFault (some s.id)

namespace Lived

variable {s : Segment} {state : SegmentState} {n : Nat} {e e' : Engine}

theorem start (h : e.segment? s = some state) : Lived s state state.refs e e where
  alive h := h
  segment := by rw [h, SegmentState.left_refs]
  others _ _ := rfl
  file f := by rw [if_neg fun hf => hf.2.1 hf.1, Nat.sub_zero]
  frame := .refl e
  cursors := ⟨[], (List.append_nil _).symm, nofun⟩

theorem refs_eq (h : Lived s state n e e') : e'.refs s = n := by
  rw [Engine.refs, h.segment]
  rfl

theorem reader_eq (h : Lived s state n e e') (hn : n ≠ 0) :
    e'.segment? s = some { state with refs := n } := by
  rw [h.segment, SegmentState.left, if_neg fun h => hn h.1]

theorem retain (h : Lived s state n e e') (hn : n ≠ 0) : Lived s state (n + 1) e
    (e'.updateSegment s fun state => { state with refs := state.refs + 1 }) where
  alive _ := h.alive hn
  segment := by
    rw [Engine.segment?_updateSegment, if_pos rfl, h.reader_eq hn, SegmentState.left,
      if_neg (by omega)]
    rfl
  others t ht := by
    rw [Engine.segment?_updateSegment, if_neg (Ne.symm ht), h.others t ht]
  file f := by
    have hf := h.file f
    rw [if_neg fun hf => hn hf.1] at hf
    rw [if_neg (by omega), ← hf]
    rfl
  frame := h.frame.trans ⟨rfl, rfl, rfl, rfl, rfl, rfl⟩
  cursors := h.cursors

theorem drop (h : Lived s state n e e') (hn : 1 < n) : Lived s state (n - 1) e (s.dropped e') where
  alive _ := h.alive (by omega)
  segment := by
    rw [dropped, Engine.segment?_updateSegment, if_pos rfl, h.reader_eq (by omega),
      SegmentState.left, if_neg (by omega)]
    rfl
  others t ht := by
    rw [dropped, Engine.segment?_updateSegment, if_neg (Ne.symm ht), h.others t ht]
  file f := by
    have hf := h.file f
    rw [if_neg (by omega)] at hf
    rw [if_neg (by omega), ← hf]
    rfl
  frame := h.frame.trans ⟨rfl, rfl, rfl, rfl, rfl, rfl⟩
  cursors := h.cursors

/-- The last release closes the reader and gives up the file, whatever comes of closing. -/
theorem close (h : Lived s state 1 e e') : Lived s state 0 e (s.closed (s.dropped e')) where
  alive hn := absurd rfl hn
  segment := by
    rw [segment?_closed, if_pos rfl, dropped, Engine.segment?_updateSegment, if_pos rfl,
      h.reader_eq Nat.one_ne_zero, SegmentState.left, if_pos ⟨rfl, h.alive Nat.one_ne_zero⟩]
    rfl
  others t ht := by
    rw [segment?_closed, if_neg (Ne.symm ht), dropped, Engine.segment?_updateSegment,
      if_neg (Ne.symm ht), h.others t ht]
  file f := by
    have hbefore : (s.closeReader (s.dropped e')).2.file f = e.file f := by
      have hf := h.file f
      rw [if_neg fun hf => Nat.one_ne_zero hf.1] at hf
      rw [closeReader_snd]
      exact hf
    rw [closed, DataFile.file_release, hbefore]
    simp only [true_and, h.alive Nat.one_ne_zero, ne_eq, not_false_eq_true]
  frame := h.frame.trans (by rw [closed_eq]; exact ⟨rfl, rfl, rfl, rfl, rfl, rfl⟩)
  cursors := by
    rw [closed_eq]
    exact h.cursors

theorem push (h : Lived s state n e e') (tokens : List Token) (closeFault : Option Fault) :
    Lived s state n e
      { e' with cursors := e'.cursors.push (.ofTokens tokens closeFault (some s.id)) } where
  alive := h.alive
  segment := h.segment
  others := h.others
  file := h.file
  frame := h.frame.trans ⟨rfl, rfl, rfl, rfl, rfl, rfl⟩
  cursors := by
    obtain ⟨opened, hopened, hall⟩ := h.cursors
    refine ⟨opened ++ [.ofTokens tokens closeFault (some s.id)], ?_, ?_⟩
    · rw [Array.toList_push, hopened, List.append_assoc]
    · rintro c hc
      rcases List.mem_append.1 hc with hc | hc
      · exact hall c hc
      · exact ⟨tokens, closeFault, List.mem_singleton.1 hc⟩

theorem call_alive (h : Lived s state n e e') (hn : n ≠ 0) (call : Call) :
    Ensures (call.on s) e' fun r e'' =>
      r = call.answer state.reader e'.cursors.size ∧ Lived s state (call.references n) e e'' := by
  have hrefs : e'.refs s ≠ 0 := h.refs_eq.symm ▸ hn
  cases call with
  | retain =>
    rw [Call.on, ensures_map, Ensures, retain_apply, if_neg hrefs, Call.references, if_neg hn]
    exact ⟨rfl, h.retain hn⟩
  | release =>
    rw [Call.on, ensures_map, Ensures, release_apply, if_neg hrefs, h.refs_eq, Call.references]
    refine ⟨rfl, ?_⟩
    by_cases hlast : n = 1
    · subst hlast
      exact h.close
    · dsimp only
      rw [if_neg hlast]
      exact h.drop (by omega)
  | search c =>
    rw [Call.on, ensures_map, Segment.search, ensures_get_bind, h.reader_eq hn]
    simp only [if_neg hn, Act.ensures_settle_bind, Call.references, Call.answer]
    rcases state.reader.search c with f | _ | found
    · exact ⟨rfl, h⟩
    · exact ⟨rfl, h⟩
    · exact ensures_map.2 ⟨rfl, h.push found.tokens found.closeFault⟩

theorem call (h : Lived s state n e e') (call : Call) :
    Lived s state (call.references n) e (call.on s e').2 := by
  by_cases hn : n = 0
  · subst hn
    rw [call.on_of_unreferenced h.refs_eq, call.references_zero]
    exact h
  · exact (h.call_alive hn call).2

theorem calls (h : Lived s state n e e') (cs : List Call) :
    Lived s state (cs.foldl Call.references n) e (Segment.calls s cs e').2 := by
  induction cs generalizing n e' with
  | nil => exact h
  | cons call rest ih => exact ih (h.call call)

end Lived

end Segment
end SecondaryIndex
