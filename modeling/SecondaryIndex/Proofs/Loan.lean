import Mathlib.Data.List.Basic
import Mathlib.Data.Nat.Init
import Mathlib.Order.Nat
import SecondaryIndex.Engine

namespace SecondaryIndex

namespace Source

/-- The source without the tokens that are still in it. -/
def blank : Source → Source
  | .tokens _ closeFault origin => .tokens [] closeFault origin
  | s => s

def isTokens : Source → Bool
  | .tokens .. => true
  | _ => false

def handedOut : Source → Bool
  | .tokens _ _ (some _) => true
  | _ => false

/-- The inputs of a union; no other source has parts. -/
def parts : Source → List Nat
  | .union children => children
  | _ => []

/-- Sources that nobody has to close and that hold no segment. -/
inductive Plain : Source → Prop
  | tokens (ts : List Token) (closeFault : Option Fault) : Plain (.tokens ts closeFault none)
  | union (children : List Nat) : Plain (.union children)
  | intersection (children : List Nat) : Plain (.intersection children)

@[simp] theorem isTokens_blank (s : Source) : s.blank.isTokens = s.isTokens := by cases s <;> rfl

@[simp] theorem parts_blank (s : Source) : s.blank.parts = s.parts := by cases s <;> rfl

@[simp] theorem handedOut_blank (s : Source) : s.blank.handedOut = s.handedOut := by
  rcases s with ⟨_, _, _ | _⟩ | _ | _ | _ <;> rfl

theorem parts_of_isTokens {s : Source} (h : s.isTokens = true) : s.parts = [] := by
  cases s with
  | tokens => rfl
  | union | intersection | «matches» => cases h

theorem eq_of_blank_eq {s t : Source} (h : s.blank = t.blank) (ht : t.isTokens = false) :
    s = t := by
  cases s <;> cases t <;> simp_all [blank, isTokens]

end Source

namespace Cursor

def still (c : Cursor) : Cursor :=
  { c with source := c.source.blank, ahead := none, exhausted := false }

/-- The segments on which a cursor holds a reference. -/
def lent (c : Cursor) : List Nat :=
  match c.source with
  | .matches _ segments => if c.closes = 0 then segments.map Segment.id else []
  | _ => []

@[simp] theorem lent_still (c : Cursor) : c.still.lent = c.lent := by
  rcases c with ⟨_, s, _, _, _⟩
  cases s <;> rfl

end Cursor

namespace Loan

def parts (cs : Array Cursor) (id : Nat) : List Nat :=
  (cs[id]?.map fun c => c.source.parts).getD []

/-- The cursors that a cursor has to close: the one that it reads, and the parts of that one. -/
def owned (cs : Array Cursor) (c : Cursor) : List Nat :=
  match c.source with
  | .matches merged _ => if c.closes = 0 then merged :: parts cs merged else []
  | _ => []

/-- The references held by the cursors from the `n`-th on. -/
def lentFrom (n : Nat) (cs : Array Cursor) : List Nat := (cs.toList.drop n).flatMap Cursor.lent

/-- The cursors that those from the `n`-th on have to close. -/
def ownedFrom (n : Nat) (cs : Array Cursor) : List Nat :=
  (cs.toList.drop n).flatMap (owned cs)

def closes (cs : Array Cursor) (id : Nat) : Nat := (cs[id]?.map Cursor.closes).getD 0

theorem closes_of_getElem? {cs : Array Cursor} {id : Nat} {c : Cursor}
    (h : cs[id]? = some c) : closes cs id = c.closes := by simp [closes, h]

theorem parts_of_getElem? {cs : Array Cursor} {id : Nat} {c : Cursor}
    (h : cs[id]? = some c) : parts cs id = c.source.parts := by simp [parts, h]

def Stills (cs cs' : Array Cursor) : Prop :=
  ∀ i : Nat, cs'[i]?.map Cursor.still = cs[i]?.map Cursor.still

/-- All cursors are still there, with their extents and sources; some may have moved or been
closed. -/
def Extends (cs cs' : Array Cursor) : Prop :=
  ∀ (i : Nat) c, cs[i]? = some c → ∃ c', cs'[i]? = some c' ∧ c'.source.blank = c.source.blank ∧
    c'.extent = c.extent ∧ c.closes ≤ c'.closes

theorem Extends.refl (cs : Array Cursor) : Extends cs cs := fun _ c h => ⟨c, h, rfl, rfl, le_rfl⟩

theorem Extends.trans {cs cs' cs'' : Array Cursor} (h : Extends cs cs') (h' : Extends cs' cs'') :
    Extends cs cs'' := by
  intro i c hc
  obtain ⟨c', hc', hs, he, hl⟩ := h i c hc
  obtain ⟨c'', hc'', hs', he', hl'⟩ := h' i c' hc'
  exact ⟨c'', hc'', hs'.trans hs, he'.trans he, hl.trans hl'⟩

theorem Extends.push (cs : Array Cursor) (c : Cursor) : Extends cs (cs.push c) := by
  intro i d hd
  have hi := (Array.getElem?_eq_some_iff.1 hd).1
  exact ⟨d, by rw [Array.getElem?_push, if_neg (by omega), hd], rfl, rfl, le_rfl⟩

theorem Stills.of_getElem? {cs cs' : Array Cursor} (h : Stills cs cs') {i : Nat} {c : Cursor}
    (hc : cs[i]? = some c) : ∃ c', cs'[i]? = some c' ∧ c'.source.blank = c.source.blank ∧
      c'.extent = c.extent ∧ c'.closes = c.closes := by
  have hi := h i
  rw [hc] at hi
  obtain ⟨c', hc', hs⟩ := Option.map_eq_some_iff.1 hi
  have hextent : c'.still.extent = c.still.extent := congrArg _ hs
  have hcloses : c'.still.closes = c.still.closes := congrArg _ hs
  exact ⟨c', hc', congrArg Cursor.source hs, hextent, hcloses⟩

theorem Stills.extends {cs cs' : Array Cursor} (h : Stills cs cs') : Extends cs cs' := by
  intro i c hc
  obtain ⟨c', hc', hs, hextent, hcloses⟩ := h.of_getElem? hc
  exact ⟨c', hc', hs, hextent, hcloses.ge⟩

theorem Extends.parts {cs cs' : Array Cursor} (h : Extends cs cs') {x : Nat}
    (hx : x < cs.size) : parts cs' x = parts cs x := by
  have hc := Array.getElem?_eq_getElem hx
  obtain ⟨c', hc', hs, -⟩ := h x _ hc
  rw [parts_of_getElem? hc, parts_of_getElem? hc', ← Source.parts_blank, hs, Source.parts_blank]

theorem Extends.closes_le {cs cs' : Array Cursor} (h : Extends cs cs') (id : Nat) :
    closes cs id ≤ closes cs' id := by
  cases hc : cs[id]? with
  | none => simp [closes, hc]
  | some c =>
    obtain ⟨c', hc', -, -, hl⟩ := h id c hc
    rwa [closes_of_getElem? hc, closes_of_getElem? hc']

theorem Stills.refl (cs : Array Cursor) : Stills cs cs := fun _ => rfl

theorem Stills.symm {cs cs' : Array Cursor} (h : Stills cs cs') : Stills cs' cs :=
  fun i => (h i).symm

theorem Stills.trans {cs cs' cs'' : Array Cursor} (h : Stills cs cs') (h' : Stills cs' cs'') :
    Stills cs cs'' := fun i => (h' i).trans (h i)

/-- No cursor has been opened; some may have moved or been closed. -/
structure Closes (cs cs' : Array Cursor) : Prop where
  ext : Extends cs cs'
  size : cs'.size = cs.size

theorem Closes.refl (cs : Array Cursor) : Closes cs cs := ⟨.refl cs, rfl⟩

theorem Closes.trans {cs cs' cs'' : Array Cursor} (h : Closes cs cs') (h' : Closes cs' cs'') :
    Closes cs cs'' := ⟨h.ext.trans h'.ext, h'.size.trans h.size⟩

def IsOpen (cs : Array Cursor) (x : Nat) : Prop :=
  ∃ c m segments, cs[x]? = some c ∧ c.source = .matches m segments ∧ c.closes = 0

/-- Of the cursors that came after those in `cs`, only matches in `ids` may be open. -/
def Opens (cs cs' : Array Cursor) (ids : List Nat) : Prop :=
  ∀ x, cs.size ≤ x → IsOpen cs' x → x ∈ ids

theorem IsOpen.lt_size {cs : Array Cursor} {x : Nat} (h : IsOpen cs x) : x < cs.size := by
  obtain ⟨c, _, _, hc, -⟩ := h
  exact (Array.getElem?_eq_some_iff.1 hc).1

theorem IsOpen.of_extends {cs cs' : Array Cursor} {x : Nat} (h : IsOpen cs' x)
    (hx : Extends cs cs') (hlt : x < cs.size) : IsOpen cs x := by
  obtain ⟨c', m, segments, hc', hs, hopen⟩ := h
  have hc := Array.getElem?_eq_getElem hlt
  obtain ⟨d, hd, hb, -, hl⟩ := hx x _ hc
  rw [hc'] at hd
  cases hd
  refine ⟨_, m, segments, hc, ?_, by omega⟩
  rw [hs] at hb
  exact Source.eq_of_blank_eq hb.symm rfl

theorem Opens.refl (cs : Array Cursor) (ids : List Nat) : Opens cs cs ids :=
  fun _ hle hopen => absurd hopen.lt_size (Nat.not_lt.2 hle)

theorem Opens.trans {cs cs' cs'' : Array Cursor} {ids ids' : List Nat} (h : Opens cs cs' ids)
    (hx : Extends cs' cs'') (h' : Opens cs' cs'' ids') : Opens cs cs'' (ids ++ ids') := by
  intro x hle hopen
  by_cases hlt : x < cs'.size
  · exact List.mem_append_left _ (h x hle (hopen.of_extends hx hlt))
  · exact List.mem_append_right _ (h' x (Nat.not_lt.1 hlt) hopen)

theorem Opens.close {cs cs' cs'' : Array Cursor} {ids : List Nat} (h : Opens cs cs' ids)
    (hc : Closes cs' cs'') : Opens cs cs'' ids :=
  fun x hle hopen => h x hle (hopen.of_extends hc.ext (hc.size ▸ hopen.lt_size))

theorem Opens.drop {cs cs' : Array Cursor} {ids : List Nat} {y : Nat} (h : Opens cs cs' (y :: ids))
    (hy : 0 < closes cs' y) : Opens cs cs' ids := by
  intro x hle hopen
  refine (List.mem_cons.1 (h x hle hopen)).resolve_left ?_
  rintro rfl
  obtain ⟨c, _, _, hc, -, hzero⟩ := hopen
  rw [closes_of_getElem? hc] at hy
  omega

theorem Opens.push {cs cs' : Array Cursor} {ids : List Nat} (h : Opens cs cs' ids) (c : Cursor) :
    Opens cs (cs'.push c) (cs'.size :: ids) := by
  intro x hle hopen
  have hlt := hopen.lt_size
  rw [Array.size_push] at hlt
  by_cases hx : x = cs'.size
  · exact List.mem_cons.2 (.inl hx)
  · exact List.mem_cons_of_mem _ (h x hle (hopen.of_extends (.push cs' c) (by omega)))

theorem Opens.push_of_ne {cs cs' : Array Cursor} {ids : List Nat} (h : Opens cs cs' ids)
    {c : Cursor} (hc : ∀ m segments, c.source ≠ .matches m segments) :
    Opens cs (cs'.push c) ids := by
  intro x hle hopen
  have hlt := hopen.lt_size
  rw [Array.size_push] at hlt
  by_cases hx : x = cs'.size
  · obtain ⟨d, m, segments, hd, hs, -⟩ := hopen
    subst hx
    rw [Array.getElem?_push_size] at hd
    cases hd
    exact absurd hs (hc m segments)
  · exact h x hle (hopen.of_extends (.push cs' c) (by omega))

theorem Stills.map_toList {cs cs' : Array Cursor} (h : Stills cs cs') :
    cs'.toList.map Cursor.still = cs.toList.map Cursor.still := by
  apply List.ext_getElem?
  intro i
  simpa using h i

theorem Stills.size_eq {cs cs' : Array Cursor} (h : Stills cs cs') : cs'.size = cs.size := by
  simpa using congrArg List.length h.map_toList

theorem Stills.flatMap_drop {cs cs' : Array Cursor} (h : Stills cs cs') (n : Nat)
    {g g' : Cursor → List Nat} (hg : ∀ c, g' c = g c.still) (hg' : ∀ c, g c.still = g c) :
    (cs'.toList.drop n).flatMap g' = (cs.toList.drop n).flatMap g := by
  calc (cs'.toList.drop n).flatMap g'
      = ((cs'.toList.map Cursor.still).drop n).flatMap g := by
        rw [← List.map_drop, List.flatMap_map]
        exact congrArg (List.flatMap · _) (funext hg)
    _ = (cs.toList.drop n).flatMap g := by
        rw [h.map_toList, ← List.map_drop, List.flatMap_map]
        exact congrArg (List.flatMap · _) (funext hg')

theorem Stills.lentFrom {cs cs' : Array Cursor} (h : Stills cs cs') (n : Nat) :
    lentFrom n cs' = lentFrom n cs :=
  h.flatMap_drop n (fun c => c.lent_still.symm) Cursor.lent_still

theorem Stills.parts {cs cs' : Array Cursor} (h : Stills cs cs') (id : Nat) :
    parts cs' id = parts cs id := by
  by_cases hid : id < cs.size
  · exact h.extends.parts hid
  · have hid' : ¬ id < cs'.size := h.size_eq ▸ hid
    simp [Loan.parts, hid, hid']

theorem owned_still (cs : Array Cursor) (c : Cursor) : owned cs c.still = owned cs c := by
  rcases c with ⟨_, s, _, _, _⟩
  cases s <;> rfl

theorem owned_congr {cs cs' : Array Cursor} {c : Cursor}
    (h : ∀ m segments, c.source = .matches m segments → parts cs' m = parts cs m) :
    owned cs' c = owned cs c := by
  rcases c with ⟨_, s, _, _, _⟩
  cases s with
  | «matches» m segments => simp only [owned, h m segments rfl]
  | _ => rfl

theorem Stills.ownedFrom {cs cs' : Array Cursor} (h : Stills cs cs') (n : Nat) :
    ownedFrom n cs' = ownedFrom n cs :=
  h.flatMap_drop n (fun c => (owned_congr fun m _ _ => h.parts m).trans (owned_still cs c).symm)
    (owned_still cs)

theorem Stills.closes {cs cs' : Array Cursor} (h : Stills cs cs') (id : Nat) :
    closes cs' id = closes cs id := by
  have hid := congrArg (Option.map Cursor.closes) (h id)
  simp only [Option.map_map] at hid
  exact congrArg (·.getD 0) hid

section

variable {α β : Type}

theorem drop_modify_flatMap {l : List α} {n i : Nat} {a : α} {g k : α → List β} (f : α → α)
    (hn : n ≤ i) (hi : l[i]? = some a) (hk : ∀ b, k b = g b) :
    ∃ rest, ((l.drop n).flatMap g).Perm (g a ++ rest) ∧
      (((l.modify i f).drop n).flatMap k).Perm (g (f a) ++ rest) := by
  obtain ⟨hlt, rfl⟩ := List.getElem?_eq_some_iff.1 hi
  have hkg : k = g := funext hk
  have hlen : n ≤ (l.take i).length := by simp; omega
  refine ⟨((l.take i).drop n).flatMap g ++ (l.drop (i + 1)).flatMap g, ?_, ?_⟩
  · conv_lhs => rw [← List.take_append_drop i l, List.drop_append_of_le_length hlen,
      List.drop_eq_getElem_cons hlt]
    rw [List.flatMap_append, List.flatMap_cons]
    exact List.perm_append_comm_assoc _ _ _
  · rw [List.modify_eq_take_cons_drop hlt, List.drop_append_of_le_length hlen, hkg,
      List.flatMap_append, List.flatMap_cons]
    exact List.perm_append_comm_assoc _ _ _

end

end Loan
end SecondaryIndex
