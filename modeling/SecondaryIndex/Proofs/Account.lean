import Mathlib.Data.List.Perm.Basic
import Mathlib.Data.List.Nodup
import SecondaryIndex.Proofs.Loan.Running
import SecondaryIndex.Proofs.Releasing

namespace SecondaryIndex

open Loan

def Engine.unreleased (e : Engine) (made : List Segment) : List Segment :=
  made.filter fun s => e.refs s ≠ 0

/-- The references are those of open matches, one for each entry in `held` on a segment, and one for
each entry in `kept` on a file. `files` and `made` are all files and segments that there are, in the
order in which they were made. -/
structure Balanced (e : Engine) (files : List DataFile) (made held : List Segment)
    (kept : List DataFile) : Prop where
  listed : files.map DataFile.id = List.range e.files.size
  numbered : made.map Segment.id = List.range e.segments.size
  known : ∀ s ∈ made, s.file ∈ files
  keepers : ∀ f ∈ kept, f ∈ files
  lenders : ∀ (x : Nat) c (m : Nat) segments, e.cursors[x]? = some c →
    c.source = .matches m segments → segments.Nodup ∧ ∀ s ∈ segments, s ∈ made
  holders : ∀ s ∈ held, s ∈ made
  segments : ∀ s ∈ made, e.refs s =
    (lentFrom 0 e.cursors).count s.id + (held.map Segment.id).count s.id
  files : ∀ (i : Nat) state, e.files[i]? = some state → state.refs =
    (((e.unreleased made).map Segment.file ++ kept).map DataFile.id).count i

namespace Balanced

variable {e e' : Engine} {files : List DataFile} {made held held' : List Segment}
  {kept kept' : List DataFile}

theorem nodup (h : Balanced e files made held kept) : made.Nodup :=
  List.Nodup.of_map Segment.id (h.numbered ▸ List.nodup_range)

theorem unreleased_congr (h : ∀ s ∈ made, e'.refs s = 0 ↔ e.refs s = 0) :
    e'.unreleased made = e.unreleased made :=
  List.filter_congr fun s hs => by simp [h s hs]

theorem eq_of_id (h : Balanced e files made held kept) {s t : Segment} (hs : s ∈ made)
    (ht : t ∈ made) (hid : s.id = t.id) : s = t :=
  List.inj_on_of_nodup_map (h.numbered ▸ List.nodup_range) hs ht hid

theorem perm (h : Balanced e files made held kept) (hheld : held.Perm held')
    (hkept : kept.Perm kept') : Balanced e files made held' kept' where
  __ := h
  keepers f hf := h.keepers f (hkept.mem_iff.2 hf)
  holders s hs := h.holders s (hheld.mem_iff.2 hs)
  segments s hs := by rw [h.segments s hs, (hheld.map Segment.id).count_eq]
  files i state hi := by
    rw [h.files i state hi, ((hkept.append_left _).map DataFile.id).count_eq]

theorem congr (h : Balanced e files made held kept) (hfiles : e'.files = e.files)
    (hsegments : e'.segments = e.segments) (hcursors : e'.cursors = e.cursors) :
    Balanced e' files made held kept := by
  have hrefs : ∀ s, e'.refs s = e.refs s := fun s => by
    rw [Engine.refs, Engine.segment?, hsegments, Engine.refs, Engine.segment?]
  refine ⟨hfiles ▸ h.listed, hsegments ▸ h.numbered, h.known, h.keepers, hcursors ▸ h.lenders,
    h.holders, fun s hs => ?_, fun i state hi => ?_⟩
  · rw [hrefs, hcursors, h.segments s hs]
  · rw [hfiles] at hi
    rw [h.files i state hi, unreleased_congr fun s _ => by rw [hrefs]]

theorem stills (h : Balanced e files made held kept) {cursors : Array Cursor}
    (hs : Stills e.cursors cursors) : Balanced { e with cursors } files made held kept where
  __ := h
  lenders x c m segments hc hsource := by
    obtain ⟨c', hc', hb, -⟩ := hs.symm.extends x c hc
    exact h.lenders x c' m segments hc'
      ((Source.eq_of_blank_eq hb (by rw [hsource]; rfl)).trans hsource)
  segments s hs' := by
    rw [hs.lentFrom]
    exact h.segments s hs'

theorem perm_filter {α : Type} [DecidableEq α] {l : List α} {a : α} {p q : α → Bool}
    (hl : l.Nodup) (ha : a ∈ l) (hp : p a = true) (hq : q a = false)
    (hothers : ∀ b ∈ l, b ≠ a → p b = q b) : (l.filter p).Perm (a :: l.filter q) := by
  have herase := List.perm_cons_erase ha
  have hcongr : (l.erase a).filter p = (l.erase a).filter q := by
    refine List.filter_congr fun b hb => ?_
    rw [hl.mem_erase_iff] at hb
    exact hothers b hb.2 hb.1
  have hp' := herase.filter p
  rw [List.filter_cons_of_pos hp, hcongr] at hp'
  have hq' := herase.filter q
  rw [List.filter_cons_of_neg (by simp [hq])] at hq'
  exact hp'.trans (hq'.symm.cons a)

theorem count_modify {states : Array FileState} {l l' : List Nat} {f : Nat}
    {change : FileState → FileState}
    (h : ∀ (i : Nat) state, states[i]? = some state → state.refs = l.count i)
    (hchange : ∀ state, state.refs = l.count f → (change state).refs = l'.count f)
    (hothers : ∀ i, f ≠ i → l'.count i = l.count i) (i : Nat) (state : FileState)
    (hi : (states.modify f change)[i]? = some state) : state.refs = l'.count i := by
  rw [Array.getElem?_modify] at hi
  split at hi
  next hf =>
    subst hf
    obtain ⟨old, hold, rfl⟩ := Option.map_eq_some_iff.1 hi
    exact hchange old (h f old hold)
  next hf => rw [h i state hi, hothers i hf]

theorem giveBack {s : Segment} (h : Balanced e files made (s :: held) kept) (hr : 2 ≤ e.refs s) :
    Balanced (s.dropped e) files made held kept := by
  have hs := h.holders s (by simp)
  refine ⟨h.listed, ?_, h.known, h.keepers, h.lenders, fun t ht => h.holders t (by simp [ht]),
    fun t ht => ?_, fun i state hi => ?_⟩
  · rw [h.numbered, Segment.dropped, Engine.updateSegment, Array.size_modify]
  · rw [Segment.refs_dropped, h.segments t ht, List.map_cons, List.count_cons]
    by_cases hid : s.id = t.id <;> simp [hid, Segment.dropped, Engine.updateSegment]
  · rw [h.files i state hi, unreleased_congr fun t ht => ?_]
    rw [Segment.refs_dropped]
    split
    next hid =>
      obtain rfl := h.eq_of_id hs ht hid
      omega
    next => rfl

theorem closed {s : Segment} (h : Balanced e files made (s :: held) kept) (hr : e.refs s = 1) :
    Balanced (s.closed (s.dropped e)) files made held kept := by
  have hs := h.holders s (by simp)
  have hrefs : ∀ t, (s.closed (s.dropped e)).refs t =
      if s.id = t.id then e.refs t - 1 else e.refs t := fun t => by
    rw [Segment.refs_closed, Segment.refs_dropped]
  have hunreleased : (e.unreleased made).Perm (s :: (s.closed (s.dropped e)).unreleased made) := by
    refine perm_filter h.nodup hs (by simp [hr]) (by simp [hrefs, hr]) fun t ht hne => ?_
    have hid : s.id ≠ t.id := fun hid => hne (h.eq_of_id hs ht hid).symm
    rw [hrefs, if_neg hid]
  have hcursors : (s.closed (s.dropped e)).cursors = e.cursors := by
    rw [Segment.closed_eq]
    rfl
  refine ⟨?_, ?_, h.known, h.keepers, hcursors ▸ h.lenders, fun t ht => h.holders t (by simp [ht]),
    fun t ht => ?_, fun i state hi => ?_⟩
  · rw [h.listed, Segment.closed_eq, Engine.updateFile, Array.size_modify]
    rfl
  · rw [h.numbered, Segment.closed_eq]
    simp [Segment.dropped, Engine.updateSegment, Engine.updateFile]
  · rw [hrefs, h.segments t ht, hcursors, List.map_cons, List.count_cons]
    by_cases hid : s.id = t.id <;> simp [hid]
  · have hfiles := ((hunreleased.map Segment.file).append_right kept).map DataFile.id
    rw [Segment.closed_eq] at hi
    refine count_modify h.files (fun state hstate => ?_) (fun j hj => ?_) i state hi
    · rw [hstate, hfiles.count_eq]
      exact congrArg (· - 1) List.count_cons_self
    · exact (List.count_cons_of_ne hj).symm.trans (hfiles.count_eq j).symm

theorem release {s : Segment} (h : Balanced e files made (s :: held) kept) :
    Ensures s.release e fun r e' => r = .ok () ∧ Balanced e' files made held kept := by
  have hpos : e.refs s ≠ 0 := by
    rw [h.segments s (h.holders s (by simp)), List.map_cons, List.count_cons_self]
    omega
  rw [Ensures, Segment.release_apply, if_neg hpos]
  refine ⟨rfl, ?_⟩
  split
  next hlast => exact h.closed hlast
  next hmore => exact h.giveBack (by omega)

theorem releaseAll {segments : List Segment} (h : Balanced e files made (segments ++ held) kept) :
    Ensures (Segment.releaseAll segments) e fun r e' => r = .ok () ∧
      Balanced e' files made held kept := by
  refine Ensures.and (R := fun r _ => r = .ok ()) (Act.allQuietly_fst _ _ _) ?_
  refine Act.ensures_allQuietly (I := fun rest e' => Balanced e' files made (rest ++ held) kept) h
    ?_
  exact fun s rest e' h' => h'.release.mono fun _ _ h'' => h''.2

/-- The segments that a cursor gives back when it is closed. -/
def lender (c : Cursor) : List Segment :=
  match c.source with
  | .matches _ segments => if c.closes = 0 then segments else []
  | _ => []

theorem lent_eq (c : Cursor) : c.lent = (lender c).map Segment.id := by
  rcases c with ⟨extent, source, ahead, exhausted, closes⟩
  cases source with
  | «matches» merged segments =>
    simp only [Cursor.lent, lender]
    split <;> rfl
  | _ => rfl

theorem closed_of_none {cs : Array Cursor} {x : Nat} (h : cs[x]? = none) :
    Loan.closed cs x = cs :=
  modify_of_none h

theorem mem_of_lender (h : Balanced e files made held kept) {x : Nat} {c : Cursor}
    (hc : e.cursors[x]? = some c) : ∀ s ∈ lender c, s ∈ made := by
  intro s hs
  rw [lender] at hs
  split at hs
  next m segments hsource =>
    split at hs
    · exact (h.lenders x c m segments hc hsource).2 s hs
    · cases hs
  next => cases hs

theorem countClose (h : Balanced e files made held kept) {x : Nat} {c : Cursor}
    (hc : e.cursors[x]? = some c) :
    Balanced { e with cursors := Loan.closed e.cursors x } files made (lender c ++ held) kept := by
  obtain ⟨hlent, -⟩ := perm_closed (Nat.zero_le x) hc
  refine ⟨h.listed, h.numbered, h.known, h.keepers, fun y d m segments hd hs => ?_, fun s hs => ?_,
    fun s hs => ?_, h.files⟩
  · obtain ⟨d', hd', hs'⟩ := source_of_closed hd
    exact h.lenders y d' m segments hd' (hs' ▸ hs)
  · exact (List.mem_append.1 hs).elim (h.mem_of_lender hc s) (h.holders s)
  · change e.refs s = (lentFrom 0 (Loan.closed e.cursors x)).count s.id + _
    rw [h.segments s hs, hlent.count_eq, lent_eq, List.map_append, List.count_append,
      List.count_append]
    omega

/-- Closing any cursor leaves the account balanced. -/
theorem closeWithin (h : Balanced e files made held kept) (depth x : Nat) :
    Ensures (Cursor.closeWithin depth x) e fun _ e' => Balanced e' files made held kept := by
  induction depth generalizing e held x with
  | zero => exact h
  | succ depth ih =>
    have hall : ∀ {e}, Balanced e files made held kept → ∀ children : List Nat,
        Ensures (Act.all (Cursor.closeWithin depth) children) e
          fun _ e' => Balanced e' files made held kept := by
      intro e h children
      refine Act.ensures_all (I := fun _ e' => Balanced e' files made held kept) h ?_
      exact fun y rest e' h' => ih h' y
    rw [Cursor.ensures_closeWithin]
    cases hc : e.cursors[x]? with
    | none =>
      rw [Array.getD_eq_getD_getElem?, hc, Option.getD_none, closed_of_none hc]
      exact h
    | some c =>
      have hclose := h.countClose hc
      rw [Array.getD_eq_getD_getElem?, hc, Option.getD_some]
      rcases c with ⟨extent, source, ahead, exhausted, closes⟩
      cases source with
      | tokens rest closeFault origin => cases closeFault <;> exact hclose
      | union children =>
        simp only [Cursor.closeSource]
        split
        · exact hall hclose children
        · exact hclose
      | intersection children =>
        simp only [Cursor.closeSource]
        split
        · exact hall hclose children
        · exact hclose
      | «matches» merged segments =>
        simp only [Cursor.closeSource]
        split
        next hopen =>
          simp only [lender, if_pos hopen] at hclose
          refine (ih hclose merged).attempt_bind fun result e' h' => ?_
          refine h'.releaseAll.bind ?_ ?_
          · intro _ e'' h''
            rw [Act.ensures_settle]
            exact h''.2
          · intro f e'' h''
            exact h''.2
        next hopen =>
          simp only [lender, if_neg hopen, List.nil_append] at hclose
          exact hclose

end Balanced
end SecondaryIndex
