import Mathlib.Algebra.GroupWithZero.Nat
import Mathlib.Algebra.Order.BigOperators.Group.List
import Mathlib.Algebra.Order.Group.Nat
import Mathlib.Data.List.Forall2
import Mathlib.Data.List.Perm.Subperm
import Mathlib.Order.Nat
import SecondaryIndex.Proofs.Ensures

namespace SecondaryIndex

abbrev Rising (ts : List Token) : Prop := ts.Pairwise (· < ·)

namespace Rising

variable {ts : List Token} {t u : Token}

theorem head_le (h : Rising (t :: ts)) (hu : u ∈ t :: ts) : t ≤ u := by
  rcases List.mem_cons.1 hu with rfl | hu
  · exact Int.le_refl _
  · exact Int.le_of_lt (List.rel_of_pairwise_cons h hu)

theorem mem_dropWhile (h : Rising ts) : u ∈ ts.dropWhile (· < t) ↔ u ∈ ts ∧ t ≤ u := by
  induction ts with
  | nil => simp
  | cons v rest ih =>
    have hrest := h.of_cons
    rw [List.dropWhile_cons]
    split
    next hv =>
      rw [decide_eq_true_eq] at hv
      rw [ih hrest, List.mem_cons]
      constructor
      · exact fun hu => ⟨.inr hu.1, hu.2⟩
      · rintro ⟨rfl | hu, htu⟩
        · lia
        · exact ⟨hu, htu⟩
    next hv =>
      rw [decide_eq_true_eq] at hv
      refine ⟨fun hu => ⟨hu, ?_⟩, And.left⟩
      have := h.head_le hu
      lia

theorem filter_ne_head (h : Rising (t :: ts)) : (t :: ts).filter (· ≠ t) = ts := by
  rw [List.filter_cons_of_neg (by simp), List.filter_eq_self]
  intro u hu
  have := List.rel_of_pairwise_cons h hu
  simp only [ne_eq, decide_not, Bool.not_eq_true', decide_eq_false_iff_not]
  lia

theorem eq_cons (h : Rising ts) (ht : t ∈ ts) (hle : ∀ u ∈ ts, t ≤ u) : ts = t :: ts.tail := by
  cases ts with
  | nil => cases ht
  | cons v rest =>
    have hvt : v = t := Int.le_antisymm (h.head_le ht) (hle v (by simp))
    rw [hvt, List.tail_cons]

theorem mem_tail (h : Rising ts) (hts : ts = t :: ts.tail) : u ∈ ts.tail ↔ u ∈ ts ∧ u ≠ t := by
  rw [hts] at h
  have hfilter := h.filter_ne_head
  rw [← hts] at hfilter
  rw [← hfilter, List.mem_filter]
  simp

theorem ext {us : List Token} (h : Rising ts) (h' : Rising us) (hmem : ∀ t, t ∈ ts ↔ t ∈ us) :
    ts = us := by
  have hne : ∀ {l : List Token}, Rising l → l.Nodup := fun hl => hl.imp fun hlt heq => by lia
  refine List.Perm.eq_of_pairwise (fun a b _ _ hab hba => by lia) h h' ?_
  exact (List.perm_ext_iff_of_nodup (hne h) (hne h')).2 hmem

theorem nodup (h : Rising ts) : ts.Nodup := h.imp fun hlt heq => by lia

end Rising

/-- Tokens to come, with the cursors that are read for them. -/
structure Part where
  reads : List Nat
  tokens : List Token

namespace Part

def skip (t : Token) (p : Part) : Part := { p with tokens := p.tokens.dropWhile (· < t) }

def without (t : Token) (p : Part) : Part := { p with tokens := p.tokens.filter (· ≠ t) }

def rest (p : Part) : Part := { p with tokens := p.tokens.tail }

def allReads (ps : List Part) : List Nat := ps.flatMap reads

end Part

theorem Part.mem_skip {p : Part} {t u : Token} (h : Rising p.tokens) :
    u ∈ (p.skip t).tokens ↔ u ∈ p.tokens ∧ t ≤ u := h.mem_dropWhile

theorem Part.mem_without {p : Part} {t u : Token} :
    u ∈ (p.without t).tokens ↔ u ∈ p.tokens ∧ u ≠ t := by
  rw [Part.without, List.mem_filter, decide_eq_true_eq]

theorem Part.mem_rest {p : Part} {t u : Token} (h : Rising p.tokens)
    (hhead : p.tokens.head? = some t) : u ∈ p.rest.tokens ↔ u ∈ p.tokens ∧ u ≠ t := by
  obtain ⟨ts, htokens⟩ := List.head?_eq_some_iff.1 hhead
  exact h.mem_tail (by rw [htokens, List.tail_cons])

/-- What the source of a cursor gives, if `below` tells what other cursors give. -/
def Sourced (below : Nat → Part → Prop) (c : Cursor) (q : Part) : Prop :=
  match c.source with
  | .tokens rest _ _ => q = ⟨[], rest⟩
  | .union children => ∃ ps, List.Forall₂ below children ps ∧ q.reads = Part.allReads ps ∧
      ∀ t, t ∈ q.tokens ↔ ∃ p ∈ ps, t ∈ p.tokens
  | .intersection children => ∃ ps, List.Forall₂ below children ps ∧ q.reads = Part.allReads ps ∧
      ps ≠ [] ∧ (∀ t, t ∈ q.tokens ↔ ∀ p ∈ ps, t ∈ p.tokens) ∧ ∀ t ∈ q.tokens, c.extent.low ≤ t
  | .matches merged _ => if c.closes = 0 then below merged q else q = ⟨[], []⟩

/-- A cursor gives the token ahead and then what its source gives. -/
structure Gives (below : Nat → Part → Prop) (c : Cursor) (x : Nat) (p q : Part) : Prop where
  reads : p.reads = x :: q.reads
  distinct : p.reads.Nodup
  source : Sourced below c q
  rising : Rising (c.ahead.toList ++ q.tokens)
  bounded : ∀ t ∈ c.ahead.toList ++ q.tokens, t ≤ c.extent.high
  spent : c.exhausted = true → c.ahead = none
  tokens : p.tokens = if c.exhausted then [] else c.ahead.toList ++ q.tokens

/-- What is to come from a cursor that merges others less than `depth` levels deep. -/
def Streams (cs : Array Cursor) : Nat → Nat → Part → Prop
  | 0, _, _ => False
  | depth + 1, x, p => ∃ c q, cs[x]? = some c ∧ Gives (Streams cs depth) c x p q

theorem forall₂_imp_mem {α β : Type} {R S : α → β → Prop} {as : List α} {bs : List β}
    (h : List.Forall₂ R as bs) (hRS : ∀ a ∈ as, ∀ b ∈ bs, R a b → S a b) :
    List.Forall₂ S as bs := by
  induction h with
  | nil => exact .nil
  | cons hab _ ih =>
    refine .cons (hRS _ (by simp) _ (by simp) hab) (ih fun a ha b hb => ?_)
    exact hRS a (List.mem_cons_of_mem _ ha) b (List.mem_cons_of_mem _ hb)

theorem exists_left {α β : Type} {R : α → β → Prop} {as : List α} {bs : List β}
    (h : List.Forall₂ R as bs) : ∀ b ∈ bs, ∃ a ∈ as, R a b := by
  induction h with
  | nil => exact nofun
  | cons hab _ ih =>
    rintro b (_ | ⟨_, hb⟩)
    · exact ⟨_, by simp, hab⟩
    · obtain ⟨a, ha, hab'⟩ := ih b hb
      exact ⟨a, List.mem_cons_of_mem _ ha, hab'⟩

theorem Part.mem_allReads {ps : List Part} {i : Nat} :
    i ∈ allReads ps ↔ ∃ p ∈ ps, i ∈ p.reads := List.mem_flatMap

theorem Sourced.mono {below below' : Nat → Part → Prop} {c : Cursor} {q : Part}
    (h : Sourced below c q)
    (hb : ∀ k p, (∀ i ∈ p.reads, i ∈ q.reads) → below k p → below' k p) : Sourced below' c q := by
  have hparts : ∀ {children : List CursorId} {ps : List Part}, q.reads = Part.allReads ps →
      List.Forall₂ below children ps → List.Forall₂ below' children ps := by
    intro children ps hreads hps
    refine forall₂_imp_mem hps fun k _ p hp => hb k p fun i hi => ?_
    rw [hreads]
    exact Part.mem_allReads.2 ⟨p, hp, hi⟩
  rcases c with ⟨extent, source, ahead, exhausted, closes⟩
  cases source with
  | tokens => exact h
  | union children =>
    obtain ⟨ps, hps, hreads, hmem⟩ := h
    exact ⟨ps, hparts hreads hps, hreads, hmem⟩
  | intersection children =>
    obtain ⟨ps, hps, hreads, hrest⟩ := h
    exact ⟨ps, hparts hreads hps, hreads, hrest⟩
  | «matches» merged segments =>
    simp only [Sourced] at h ⊢
    split at h
    next hopen =>
      rw [if_pos hopen]
      exact hb merged q (fun _ hi => hi) h
    next hopen =>
      rw [if_neg hopen]
      exact h

/-- Nothing but the cursors that are read has changed. -/
def Beside (reads : List Nat) (cs cs' : Array Cursor) : Prop :=
  ∀ i : Nat, i ∉ reads → cs'[i]? = cs[i]?

namespace Beside

variable {reads reads' : List Nat} {cs cs' cs'' : Array Cursor}

theorem refl (reads : List Nat) (cs : Array Cursor) : Beside reads cs cs := fun _ _ => rfl

theorem trans (h : Beside reads cs cs') (h' : Beside reads cs' cs'') : Beside reads cs cs'' :=
  fun i hi => (h' i hi).trans (h i hi)

theorem mono (h : Beside reads cs cs') (hsub : ∀ i ∈ reads, i ∈ reads') : Beside reads' cs cs' :=
  fun i hi => h i fun hi' => hi (hsub i hi')

theorem modify {x : Nat} (hx : x ∈ reads) (cs : Array Cursor) (f : Cursor → Cursor) :
    Beside reads cs (cs.modify x f) := by
  intro i hi
  rw [Array.getElem?_modify, if_neg]
  rintro rfl
  exact hi hx

end Beside

namespace Streams

variable {cs cs' : Array Cursor} {depth x : Nat} {p : Part} {children reads : List Nat}
  {ps : List Part}

/-- What is to come from a cursor depends on nothing but the cursors that are read for it. -/
theorem frame (h : Streams cs depth x p) (hcs : ∀ i ∈ p.reads, cs'[i]? = cs[i]?) :
    Streams cs' depth x p := by
  induction depth generalizing x p with
  | zero => exact h
  | succ depth ih =>
    obtain ⟨c, q, hc, hgives⟩ := h
    rw [hgives.reads] at hcs
    refine ⟨c, q, (hcs x (by simp)).trans hc, { hgives with source := ?_ }⟩
    refine hgives.source.mono fun k r hr hk => ih hk fun i hi => ?_
    exact hcs i (List.mem_cons_of_mem x (hr i hi))

theorem beside (h : Streams cs depth x p) (hb : Beside reads cs cs')
    (hdisjoint : ∀ i ∈ p.reads, i ∉ reads) : Streams cs' depth x p :=
  h.frame fun i hi => hb i (hdisjoint i hi)

theorem all_beside (h : List.Forall₂ (Streams cs depth) children ps) (hb : Beside reads cs cs')
    (hdisjoint : ∀ i ∈ Part.allReads ps, i ∉ reads) :
    List.Forall₂ (Streams cs' depth) children ps :=
  forall₂_imp_mem h fun _ _ p hp hk =>
    hk.beside hb fun i hi => hdisjoint i (Part.mem_allReads.2 ⟨p, hp, hi⟩)

theorem rising (h : Streams cs depth x p) : Rising p.tokens := by
  cases depth with
  | zero => exact h.elim
  | succ depth =>
    obtain ⟨c, q, -, hgives⟩ := h
    rw [hgives.tokens]
    split
    · exact .nil
    · exact hgives.rising

theorem mono {depth' : Nat} (h : Streams cs depth x p) (hle : depth ≤ depth') :
    Streams cs depth' x p := by
  induction depth generalizing depth' x p with
  | zero => exact h.elim
  | succ depth ih =>
    obtain ⟨depth', rfl⟩ := Nat.exists_eq_add_one_of_ne_zero (by omega : depth' ≠ 0)
    obtain ⟨c, q, hc, hgives⟩ := h
    refine ⟨c, q, hc, { hgives with source := ?_ }⟩
    exact hgives.source.mono fun k r _ hk => ih hk (by omega)

end Streams

def pendingAt (cs : Array Cursor) (i : Nat) : Nat := (cs[i]?.map Cursor.pending).getD 0

theorem pending_eq_sum (cs : Array Cursor) :
    Pull.pending cs = ((List.range cs.size).map (pendingAt cs)).sum := by
  have hmap : (List.range cs.size).map (pendingAt cs) = cs.toList.map Cursor.pending := by
    apply List.ext_getElem?
    intro i
    rw [List.getElem?_map, List.getElem?_map]
    by_cases hi : i < cs.size
    · rw [List.getElem?_range hi, Array.getElem?_toList, Option.map_some, pendingAt,
        Array.getElem?_eq_getElem hi]
      rfl
    · rw [List.getElem?_eq_none (by simpa using hi), List.getElem?_eq_none (by simpa using hi)]
      rfl
  rw [hmap, Pull.pending, List.sum_eq_foldr, List.foldr_map]

theorem sum_pendingAt_filter (cs : Array Cursor) (l : List Nat) :
    ((l.filter (· < cs.size)).map (pendingAt cs)).sum = (l.map (pendingAt cs)).sum := by
  induction l with
  | nil => rfl
  | cons i rest ih =>
    rw [List.map_cons, List.sum_cons, ← ih, List.filter_cons]
    split
    · rw [List.map_cons, List.sum_cons]
    next hi =>
      rw [decide_eq_true_eq] at hi
      rw [pendingAt, Array.getElem?_eq_none (by omega)]
      exact (Nat.zero_add _).symm

theorem sum_pendingAt_le {cs : Array Cursor} {reads : List Nat} (h : reads.Nodup) :
    (reads.map (pendingAt cs)).sum ≤ Pull.pending cs := by
  have hsub : (reads.filter (· < cs.size)).Subperm (List.range cs.size) := by
    refine List.Nodup.subperm (h.filter _) fun i hi => ?_
    rw [List.mem_filter, decide_eq_true_eq] at hi
    exact List.mem_range.2 hi.2
  obtain ⟨l, hperm, hl⟩ := hsub
  rw [pending_eq_sum, ← sum_pendingAt_filter, ← (hperm.map (pendingAt cs)).sum_eq]
  exact (hl.map (pendingAt cs)).sum_le_sum fun _ _ => Nat.zero_le _

theorem sum_length_le {f : Nat → Nat} {ps : List Part}
    (h : ∀ p ∈ ps, p.tokens.length ≤ (p.reads.map f).sum) :
    (ps.map fun p => p.tokens.length).sum ≤ ((Part.allReads ps).map f).sum := by
  induction ps with
  | nil => exact Nat.le_refl 0
  | cons p rest ih =>
    rw [List.forall_mem_cons] at h
    rw [List.map_cons, List.sum_cons, Part.allReads, List.flatMap_cons, List.map_append,
      List.sum_append]
    exact Nat.add_le_add h.1 (ih h.2)

theorem Part.length_le_sum {ps : List Part} {p : Part} (h : p ∈ ps) :
    p.tokens.length ≤ (ps.map fun p => p.tokens.length).sum :=
  List.le_sum_of_mem (List.mem_map_of_mem h)

/-- What a source gives is pending in its cursor and in the cursors that are read for it. -/
theorem Sourced.length_le {below : Nat → Part → Prop} {c : Cursor} {q : Part} {f : Nat → Nat}
    (h : Sourced below c q) (hnodup : q.tokens.Nodup)
    (hbelow : ∀ k p, below k p → p.tokens.length ≤ (p.reads.map f).sum) :
    c.ahead.toList.length + q.tokens.length ≤ c.pending + (q.reads.map f).sum := by
  have hparts : ∀ {children : List CursorId} {ps : List Part}, List.Forall₂ below children ps →
      q.reads = Part.allReads ps →
        (ps.map fun p => p.tokens.length).sum ≤ (q.reads.map f).sum := by
    intro children ps hps hreads
    rw [hreads]
    refine sum_length_le fun p hp => ?_
    obtain ⟨k, -, hk⟩ := exists_left hps p hp
    exact hbelow k p hk
  rw [Cursor.pending]
  rcases c with ⟨extent, source, ahead, exhausted, closes⟩
  cases source with
  | tokens rest _ _ =>
    rw [show q = ⟨[], rest⟩ from h]
    simp
  | union children =>
    obtain ⟨ps, hps, hreads, hmem⟩ := h
    have hsub : q.tokens ⊆ ps.flatMap Part.tokens := fun t ht => by simpa using (hmem t).1 ht
    have hlen := (hnodup.subperm hsub).length_le
    rw [List.length_flatMap] at hlen
    have := hparts hps hreads
    simp only
    omega
  | intersection children =>
    obtain ⟨ps, hps, hreads, hne, hmem, -⟩ := h
    obtain ⟨p, hp⟩ := List.exists_mem_of_ne_nil ps hne
    have hlen := (hnodup.subperm fun t ht => (hmem t).1 ht p hp).length_le
    have := hparts hps hreads
    have := Part.length_le_sum hp
    simp only
    omega
  | «matches» merged segments =>
    simp only [Sourced] at h
    split at h
    · have := hbelow merged q h
      simp only
      omega
    · rw [h]
      simp

theorem Streams.length_le {cs : Array Cursor} {depth x : Nat} {p : Part}
    (h : Streams cs depth x p) : p.tokens.length ≤ (p.reads.map (pendingAt cs)).sum := by
  induction depth generalizing x p with
  | zero => exact h.elim
  | succ depth ih =>
    obtain ⟨c, q, hc, hgives⟩ := h
    have hnodup : q.tokens.Nodup := Rising.nodup (List.pairwise_append.1 hgives.rising).2.1
    rw [hgives.reads, List.map_cons, List.sum_cons, pendingAt, hc, hgives.tokens]
    split
    · exact Nat.zero_le _
    · rw [List.length_append]
      exact hgives.source.length_le hnodup fun k r hk => ih hk

end SecondaryIndex
