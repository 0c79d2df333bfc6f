import SecondaryIndex.Proofs.Loan.Closing
import SecondaryIndex.Proofs.Merging
import SecondaryIndex.Proofs.Stream

namespace SecondaryIndex

def Beyond (n : Nat) (cs cs' : Array Cursor) : Prop := ∀ i : Nat, i < n → cs'[i]? = cs[i]?

namespace Beyond

variable {n n' : Nat} {cs cs' cs'' : Array Cursor}

theorem refl (n : Nat) (cs : Array Cursor) : Beyond n cs cs := fun _ _ => rfl

theorem of_eq (h : cs' = cs) : Beyond n cs cs' := fun _ _ => by rw [h]

theorem trans (h : Beyond n cs cs') (h' : Beyond n cs' cs'') : Beyond n cs cs'' :=
  fun i hi => (h' i hi).trans (h i hi)

theorem mono (h : Beyond n cs cs') (hle : n' ≤ n) : Beyond n' cs cs' :=
  fun i hi => h i (Nat.lt_of_lt_of_le hi hle)

theorem push (cs : Array Cursor) (c : Cursor) : Beyond cs.size cs (cs.push c) := by
  intro i hi
  rw [Array.getElem?_push, if_neg (Nat.ne_of_lt hi)]

theorem le_size (h : Beyond n cs cs') (hn : n ≤ cs.size) : n ≤ cs'.size := by
  by_contra hlt
  have hi := h cs'.size (Nat.not_le.1 hlt)
  rw [Array.getElem?_eq_none (Nat.le_refl _), Array.getElem?_eq_getElem (by omega)] at hi
  cases hi

theorem of_beside {reads : List Nat} (h : Beside reads cs cs') (hreads : ∀ i ∈ reads, n ≤ i) :
    Beyond n cs cs' := fun i hi => h i fun hmem => Nat.not_le.2 hi (hreads i hmem)

end Beyond

namespace Streams

variable {cs cs' : Array Cursor} {depth x : Nat} {p : Part}

theorem nodup (h : Streams cs depth x p) : p.reads.Nodup := by
  cases depth with
  | zero => exact h.elim
  | succ depth =>
    obtain ⟨c, q, -, hgives⟩ := h
    exact hgives.distinct

theorem mem_reads (h : Streams cs depth x p) : x ∈ p.reads := by
  cases depth with
  | zero => exact h.elim
  | succ depth =>
    obtain ⟨c, q, -, hgives⟩ := h
    rw [hgives.reads]
    exact List.mem_cons_self

theorem lt_size (h : Streams cs depth x p) : ∀ i ∈ p.reads, i < cs.size := by
  induction depth generalizing x p with
  | zero => exact h.elim
  | succ depth ih =>
    obtain ⟨c, q, hc, hgives⟩ := h
    have hparts : ∀ {children : List CursorId} {ps : List Part},
        List.Forall₂ (Streams cs depth) children ps → q.reads = Part.allReads ps →
          ∀ i ∈ q.reads, i < cs.size := by
      intro children ps hps hreads i hi
      rw [hreads] at hi
      obtain ⟨r, hr, hi⟩ := Part.mem_allReads.1 hi
      obtain ⟨k, -, hk⟩ := exists_left hps r hr
      exact ih hk i hi
    have hbelow : ∀ i ∈ q.reads, i < cs.size := by
      have hsource := hgives.source
      rcases c with ⟨extent, source, ahead, exhausted, closes⟩
      cases source with
      | tokens rest _ _ =>
        rw [show q = ⟨[], rest⟩ from hsource]
        exact fun i hi => absurd hi List.not_mem_nil
      | union children =>
        obtain ⟨ps, hps, hreads, -⟩ := hsource
        exact hparts hps hreads
      | intersection children =>
        obtain ⟨ps, hps, hreads, -⟩ := hsource
        exact hparts hps hreads
      | «matches» merged segments =>
        simp only [Sourced] at hsource
        split at hsource
        · exact ih hsource
        · rw [hsource]
          exact fun i hi => absurd hi List.not_mem_nil
    rw [hgives.reads]
    exact List.forall_mem_cons.2 ⟨(Array.getElem?_eq_some_iff.1 hc).1, hbelow⟩

end Streams

/-- A stream of cursors opened after the first `n`, within the extent of its first one. -/
structure Opened (n : Nat) (cs : Array Cursor) (x : Nat) (p : Part) : Prop where
  streams : Streams cs (x + 1) x p
  within : ∀ t ∈ p.tokens, (Merge.extentOf cs x).low ≤ t ∧ t ≤ (Merge.extentOf cs x).high
  new : ∀ i ∈ p.reads, n ≤ i

namespace Opened

variable {n n' x : Nat} {cs cs' : Array Cursor} {p q : Part}

theorem lt_size (h : Opened n cs x p) : x < cs.size := h.streams.lt_size x h.streams.mem_reads

theorem frame (h : Opened n cs x p) (hcs : ∀ i ∈ p.reads, cs'[i]? = cs[i]?) :
    Opened n cs' x p where
  streams := h.streams.frame hcs
  within := by
    rw [Merge.extentOf_congr (hcs x h.streams.mem_reads)]
    exact h.within
  new := h.new

theorem beyond (h : Opened n cs x p) (hb : Beyond cs.size cs cs') : Opened n cs' x p :=
  h.frame fun i hi => hb i (h.streams.lt_size i hi)

theorem mono (h : Opened n cs x p) (hle : n' ≤ n) : Opened n' cs x p :=
  { h with new := fun i hi => Nat.le_trans hle (h.new i hi) }

theorem push {c : Cursor} (hn : n ≤ cs.size) (hahead : c.ahead = none)
    (hexhausted : c.exhausted = false) (hs : Sourced (Streams cs cs.size) c q)
    (hrising : Rising q.tokens) (hdistinct : q.reads.Nodup)
    (hreads : ∀ i ∈ q.reads, n ≤ i ∧ i < cs.size)
    (hwithin : ∀ t ∈ q.tokens, c.extent.low ≤ t ∧ t ≤ c.extent.high) :
    Opened n (cs.push c) cs.size ⟨cs.size :: q.reads, q.tokens⟩ where
  streams := by
    refine ⟨c, q, Array.getElem?_push_size, rfl, ?_, ?_, ?_, ?_, fun _ => hahead, ?_⟩
    · exact List.nodup_cons.2 ⟨fun hmem => Nat.lt_irrefl _ (hreads _ hmem).2, hdistinct⟩
    · exact hs.mono fun _ _ hr hk => hk.frame fun i hi => Beyond.push cs c i (hreads i (hr i hi)).2
    · rw [hahead]
      exact hrising
    · rw [hahead]
      exact fun t ht => (hwithin t ht).2
    · rw [hexhausted, hahead]
      rfl
  within := by
    rw [Merge.extentOf_push]
    exact hwithin
  new := List.forall_mem_cons.2 ⟨hn, fun i hi => (hreads i hi).1⟩

theorem ofTokens {ts : List Token} (hn : n ≤ cs.size) (hts : Rising ts)
    (closeFault : Option Fault) (origin : Option Nat) :
    Opened n (cs.push (Cursor.ofTokens ts closeFault origin)) cs.size ⟨[cs.size], ts⟩ := by
  refine push (q := ⟨[], ts⟩) hn rfl rfl rfl hts .nil nofun fun t ht => ⟨?_, ?_⟩
  · cases ts with
    | nil => cases ht
    | cons u rest => exact hts.head_le ht
  · change t ≤ ts.getLastD 0
    rcases List.eq_nil_or_concat ts with rfl | ⟨rest, u, rfl⟩
    · cases ht
    rw [List.concat_eq_append] at ht hts ⊢
    rw [List.getLastD_concat]
    rcases List.mem_append.1 ht with ht | ht
    · have := (List.pairwise_append.1 hts).2.2 t ht u (by simp)
      lia
    · rw [List.mem_singleton.1 ht]

theorem «matches» {m : Nat} (h : Opened n cs m q) (hn : n ≤ cs.size) (segments : List Segment) :
    Opened n (cs.push { extent := Merge.extentOf cs m, source := .matches m segments }) cs.size
      ⟨cs.size :: q.reads, q.tokens⟩ := by
  refine push hn rfl rfl ?_ h.streams.rising h.streams.nodup
    (fun i hi => ⟨h.new i hi, h.streams.lt_size i hi⟩) h.within
  simp only [Sourced]
  exact h.streams.mono h.lt_size

end Opened

namespace Connective

/-- Whether a token is in all of some parts, or in any. -/
def Within (k : Connective) (ps : List Part) (t : Token) : Prop :=
  match k with
  | .or => ∃ p ∈ ps, t ∈ p.tokens
  | .and => ∀ p ∈ ps, t ∈ p.tokens

/-- Which tokens a merge of some parts gives: none without parts. -/
def Joins (k : Connective) (ps : List Part) (t : Token) : Prop := ps ≠ [] ∧ k.Within ps t

end Connective

/-- Some streams that share nothing, opened after the first `n` cursors. -/
structure Inputs (n : Nat) (cs : Array Cursor) (ids : List Nat) (ps : List Part) : Prop where
  each : List.Forall₂ (Opened n cs) ids ps
  distinct : (Part.allReads ps).Nodup

namespace Inputs

variable {n n' x : Nat} {cs cs' : Array Cursor} {ids : List Nat} {ps : List Part} {p : Part}

theorem nil (n : Nat) (cs : Array Cursor) : Inputs n cs [] [] := ⟨.nil, .nil⟩

theorem mem_reads (h : Inputs n cs ids ps) : ∀ i ∈ Part.allReads ps, n ≤ i ∧ i < cs.size := by
  intro i hi
  obtain ⟨p, hp, hi⟩ := Part.mem_allReads.1 hi
  obtain ⟨x, -, hx⟩ := exists_left h.each p hp
  exact ⟨hx.new i hi, hx.streams.lt_size i hi⟩

theorem lt_size (h : Inputs n cs ids ps) : ∀ x ∈ ids, x < cs.size := by
  have heach := h.each
  clear h
  induction heach with
  | nil => exact nofun
  | cons hx _ ih => exact List.forall_mem_cons.2 ⟨hx.lt_size, ih⟩

theorem frame (h : Inputs n cs ids ps) (hcs : ∀ i ∈ Part.allReads ps, cs'[i]? = cs[i]?) :
    Inputs n cs' ids ps where
  each := forall₂_imp_mem h.each fun _ _ p hp hx =>
    hx.frame fun i hi => hcs i (Part.mem_allReads.2 ⟨p, hp, hi⟩)
  distinct := h.distinct

theorem beyond (h : Inputs n cs ids ps) (hb : Beyond cs.size cs cs') : Inputs n cs' ids ps :=
  h.frame fun i hi => hb i (h.mem_reads i hi).2

theorem concat (h : Inputs n cs ids ps) (hx : Opened n cs x p)
    (hdisjoint : ∀ i ∈ Part.allReads ps, i ∉ p.reads) : Inputs n cs (ids ++ [x]) (ps ++ [p]) where
  each := List.rel_append h.each (.cons hx .nil)
  distinct := by
    rw [Part.allReads, List.flatMap_append, List.flatMap_singleton, List.nodup_append]
    refine ⟨h.distinct, hx.streams.nodup, ?_⟩
    rintro i hi _ hi' rfl
    exact hdisjoint i hi hi'

theorem cons (hx : Opened n cs x p) (h : Inputs n cs ids ps)
    (hdisjoint : ∀ i ∈ p.reads, i ∉ Part.allReads ps) : Inputs n cs (x :: ids) (p :: ps) where
  each := .cons hx h.each
  distinct := by
    rw [Part.allReads, List.flatMap_cons, List.nodup_append]
    refine ⟨hx.streams.nodup, h.distinct, ?_⟩
    rintro i hi _ hi' rfl
    exact hdisjoint i hi hi'

theorem mono (h : Inputs n cs ids ps) (hle : n' ≤ n) : Inputs n' cs ids ps :=
  ⟨h.each.imp fun _ _ hx => hx.mono hle, h.distinct⟩

theorem streams (h : Inputs n cs ids ps) : List.Forall₂ (Streams cs cs.size) ids ps :=
  h.each.imp fun _ _ hx => hx.streams.mono hx.lt_size

end Inputs

end SecondaryIndex
