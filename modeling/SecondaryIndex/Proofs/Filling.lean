import Mathlib.Data.List.Dedup
import SecondaryIndex.Proofs.Searching.Rows

namespace SecondaryIndex

namespace Postings

variable {type : ValueType} {term : Bytes} {token : Token} {entries entries' : List Entry}
  {e : Entry} {p p' q : Postings} {rows rows' : List (Bytes × Token)}

def pairs (p : Postings) : List (Bytes × Token) :=
  p.entries.flatMap fun e => e.tokens.map fun t => (e.term, t)

theorem mem_pairs :
    (term, token) ∈ p.pairs ↔ ∃ e ∈ p.entries, e.term = term ∧ token ∈ e.tokens := by
  simp only [pairs, List.mem_flatMap, List.mem_map, Prod.mk.injEq]
  grind

theorem map_snd_pairs : p.pairs.map Prod.snd = p.tokens := by
  simp [pairs, tokens, List.map_flatMap, Function.comp_def]

theorem length_pairs : p.pairs.length = p.tokens.length := by
  rw [← map_snd_pairs, List.length_map]

theorem nodup_terms (hrising : Rising type entries) : (entries.map Entry.term).Nodup := by
  apply (pairwise_terms hrising).imp
  intro a b hab heq
  have hself : type.order b b = .eq := Std.ReflCmp.compare_self
  rw [heq, hself] at hab
  cases hab

theorem Sorted.mem_tokens (hp : p.Sorted) (he : e ∈ p.entries) :
    token ∈ e.tokens ↔ (e.term, token) ∈ p.pairs := by
  rw [mem_pairs]
  refine ⟨fun h => ⟨e, he, rfl, h⟩, ?_⟩
  intro ⟨e', he', hterm, h⟩
  rw [List.inj_on_of_nodup_map (nodup_terms hp.rising) he' he hterm] at h
  exact h

theorem Sorted.mem_terms (hp : p.Sorted) :
    term ∈ p.entries.map Entry.term ↔ term ∈ p.pairs.map Prod.fst := by
  rw [List.mem_map, List.mem_map]
  constructor
  · intro ⟨e, he, hterm⟩
    obtain ⟨t, ht⟩ := List.exists_mem_of_ne_nil _ (hp.tokened e he).1
    exact ⟨(e.term, t), (hp.mem_tokens he).1 ht, hterm⟩
  · intro ⟨row, hrow, hterm⟩
    obtain ⟨e, he, heq, -⟩ := mem_pairs.1 hrow
    exact ⟨e, he, heq.trans hterm⟩

theorem Sorted.nodup_pairs (hp : p.Sorted) : p.pairs.Nodup := by
  apply List.nodup_flatMap.2
  constructor
  · intro e he
    exact (hp.tokened e he).2.nodup.map fun t u h => congrArg Prod.snd h
  · apply (List.pairwise_map.1 (nodup_terms hp.rising)).imp
    intro e e' hne row hrow hrow'
    obtain ⟨t, -, rfl⟩ := List.mem_map.1 hrow
    obtain ⟨u, -, heq⟩ := List.mem_map.1 hrow'
    exact hne (congrArg Prod.fst heq).symm

theorem Sorted.mem_of_pairs (hp : p.Sorted) (hq : q.Sorted)
    (h : ∀ row, row ∈ p.pairs ↔ row ∈ q.pairs) (he : e ∈ p.entries) : e ∈ q.entries := by
  obtain ⟨t, ht⟩ := List.exists_mem_of_ne_nil _ (hp.tokened e he).1
  obtain ⟨e', he', hterm, -⟩ := mem_pairs.1 ((h _).1 ((hp.mem_tokens he).1 ht))
  have htokens : e'.tokens = e.tokens := by
    apply Rising.ext (hq.tokened e' he').2 (hp.tokened e he).2
    intro u
    rw [hq.mem_tokens he', hp.mem_tokens he, h, hterm]
  obtain ⟨term', tokens'⟩ := e'
  obtain rfl : term' = e.term := hterm
  obtain rfl : tokens' = e.tokens := htokens
  exact he'

theorem Sorted.entries_eq (hp : p.Sorted) (hq : q.Sorted) (htype : p.type = q.type)
    (h : ∀ row, row ∈ p.pairs ↔ row ∈ q.pairs) : p.entries = q.entries := by
  have hperm : p.entries.Perm q.entries := by
    apply (List.perm_ext_iff_of_nodup (nodup_terms hp.rising).of_map
      (nodup_terms hq.rising).of_map).2
    exact fun e => ⟨hp.mem_of_pairs hq h, hq.mem_of_pairs hp fun row => (h row).symm⟩
  have hrising : Rising p.type q.entries := htype ▸ hq.rising
  apply hperm.eq_of_pairwise _ hp.rising hrising
  intro a b _ _ hab hba
  rw [compare_swap hab] at hba
  cases hba

/-- What was counted and noted is true of the tokens that are there. -/
structure Counted (p : Postings) : Prop where
  count : p.tokenCount = p.tokens.length
  least : Foremost (· ≤ ·) p.tokens p.minToken
  greatest : Foremost (· ≥ ·) p.tokens p.maxToken

theorem counted_empty (type : ValueType) : ({ type } : Postings).Counted := ⟨rfl, rfl, rfl⟩

theorem least_cons {ts : List Token} {least : Option Token} (h : Foremost (· ≤ ·) ts least)
    (t : Token) : Foremost (· ≤ ·) (t :: ts) (some (least.elim t (min t))) := by
  have hpick (u v : Int) : min u v = u ∧ u ≤ v ∨ min u v = v ∧ v ≤ u := by omega
  exact h.cons Int.le_refl (fun _ _ _ => Int.le_trans) hpick t

theorem greatest_cons {ts : List Token} {greatest : Option Token}
    (h : Foremost (· ≥ ·) ts greatest) (t : Token) :
    Foremost (· ≥ ·) (t :: ts) (some (greatest.elim t (max t))) := by
  have hrefl (u : Token) : u ≥ u := Int.le_refl u
  have htrans (u v w : Token) (huv : u ≥ v) (hvw : v ≥ w) : u ≥ w := Int.le_trans hvw huv
  have hpick (u v : Int) : max u v = u ∧ u ≥ v ∨ max u v = v ∧ v ≥ u := by omega
  exact h.cons hrefl htrans hpick t

theorem perm_insertEntry {found : List Entry} (hfound : lookup type term entries = .ok found)
    (hnew : (found.any fun e => e.tokens.contains token) = false)
    (h : insertEntry type term token entries = .ok entries') :
    (entries'.flatMap Entry.tokens).Perm (token :: entries.flatMap Entry.tokens) := by
  induction entries generalizing entries' with
  | nil =>
    cases h
    exact .refl _
  | cons first rest ih =>
    obtain ⟨o, ho, h⟩ := bind_eq_ok.1 h
    obtain ⟨o', ho', hfound⟩ := bind_eq_ok.1 hfound
    obtain rfl := Except.ok.inj (ho.symm.trans ho')
    cases o with
    | lt =>
      obtain ⟨more, hmore, h⟩ := bind_eq_ok.1 h
      cases h
      exact ((ih hfound hmore).append_left first.tokens).trans List.perm_middle
    | eq =>
      cases hfound
      cases h
      have hnot : token ∉ first.tokens := by simpa using hnew
      exact (TokenSet.perm_insert hnot).append_right _
    | gt =>
      cases h
      exact .refl _

theorem Counted.add (hp : p.Counted) (h : p.add term token = .ok p') : p'.Counted := by
  rcases add_eq_ok h with ⟨-, rfl⟩ | ⟨hlisted, entries, hentries, rfl⟩
  · exact hp
  obtain ⟨found, hfound, hnew⟩ := bind_eq_ok.1 hlisted
  have hperm := perm_insertEntry hfound (Except.ok.inj hnew) hentries
  have hmem : ∀ t, t ∈ token :: p.tokens ↔ t ∈ entries.flatMap Entry.tokens :=
    fun t => hperm.symm.mem_iff
  refine ⟨?_, ?_, ?_⟩
  · change p.tokenCount + 1 = (entries.flatMap Entry.tokens).length
    rw [hperm.length_eq, hp.count]
    rfl
  · exact (least_cons hp.least token).congr hmem
  · exact (greatest_cons hp.greatest token).congr hmem

theorem Counted.addAll (hp : p.Counted) (h : p.addAll rows = .ok p') : p'.Counted := by
  induction rows generalizing p with
  | nil =>
    cases h
    exact hp
  | cons row rest ih =>
    obtain ⟨p₁, hadd, h⟩ := bind_eq_ok.1 h
    exact ih (hp.add hadd) h

/-- The rows settle the postings, the counts and extremes included. -/
theorem Sorted.eq_of_pairs (hp : p.Sorted) (hq : q.Sorted) (hp' : p.Counted) (hq' : q.Counted)
    (htype : p.type = q.type) (h : ∀ row, row ∈ p.pairs ↔ row ∈ q.pairs) : p = q := by
  have hentries := hp.entries_eq hq htype h
  have htokens : p.tokens = q.tokens := congrArg (List.flatMap Entry.tokens) hentries
  have hcount : p.tokenCount = q.tokenCount := by rw [hp'.count, hq'.count, htokens]
  have hleast : p.minToken = q.minToken :=
    hp'.least.unique (fun t u => Int.le_antisymm) (htokens ▸ hq'.least)
  have hgreatest : p.maxToken = q.maxToken :=
    hp'.greatest.unique (fun t u htu hut => Int.le_antisymm hut htu) (htokens ▸ hq'.greatest)
  cases p
  cases q
  exact (mk.injEq ..).mpr ⟨htype, hentries, hcount, hleast, hgreatest⟩

theorem length_eq_dedup {α : Type} [DecidableEq α] {xs ys : List α} (hxs : xs.Nodup)
    (h : ∀ x, x ∈ xs ↔ x ∈ ys) : xs.length = ys.dedup.length := by
  apply List.Perm.length_eq
  apply (List.perm_ext_iff_of_nodup hxs (List.nodup_dedup ys)).2
  exact fun x => (h x).trans List.mem_dedup.symm

structure Holds (p : Postings) (rows : List (Bytes × Token)) : Prop where
  sorted : p.Sorted
  mem : ∀ row, row ∈ p.pairs ↔ row ∈ rows
  tokenCount : p.tokenCount = rows.dedup.length
  termCount : p.termCount = (rows.map Prod.fst).dedup.length
  minToken : Foremost (· ≤ ·) (rows.map Prod.snd) p.minToken
  maxToken : Foremost (· ≥ ·) (rows.map Prod.snd) p.maxToken
  minTerm : Foremost (fun a b => (p.type.order a b).isLE) (rows.map Prod.fst) p.minTerm
  maxTerm : Foremost (fun a b => (p.type.order b a).isLE) (rows.map Prod.fst) p.maxTerm

theorem holds_of_pairs (hp : p.Sorted) (hp' : p.Counted)
    (h : ∀ row, row ∈ p.pairs ↔ row ∈ rows) : p.Holds rows := by
  have htokens : ∀ t, t ∈ p.tokens ↔ t ∈ rows.map Prod.snd := by
    intro t
    rw [← map_snd_pairs, List.mem_map, List.mem_map]
    exact exists_congr fun row => and_congr_left' (h row)
  have hterms : ∀ term, term ∈ p.entries.map Entry.term ↔ term ∈ rows.map Prod.fst := by
    intro term
    rw [hp.mem_terms, List.mem_map, List.mem_map]
    exact exists_congr fun row => and_congr_left' (h row)
  refine ⟨hp, h, ?_, ?_, hp'.least.congr htokens, hp'.greatest.congr htokens,
    (foremost_minTerm hp.rising).congr hterms, (foremost_maxTerm hp.rising).congr hterms⟩
  · rw [hp'.count, ← length_pairs]
    exact length_eq_dedup hp.nodup_pairs h
  · rw [← length_eq_dedup (nodup_terms hp.rising) hterms, List.length_map]
    rfl

/-- A row stands in filled postings just if it was brought. -/
theorem fill_pairs (hrows : ∀ row ∈ rows, type.WellFormed row.1) :
    ∃ p, ({ type } : Postings).addAll rows = .ok p ∧ p.type = type ∧ p.Sorted ∧ p.Counted ∧
      ∀ row, row ∈ p.pairs ↔ row ∈ rows := by
  obtain ⟨p, hall, hp, htype, hsound, hunder⟩ := fill_sound hrows
  refine ⟨p, hall, htype, hp, (counted_empty type).addAll hall, fun row => ?_⟩
  obtain ⟨value, t⟩ := row
  rw [mem_pairs]
  constructor
  · rintro ⟨e, he, rfl, ht⟩
    obtain ⟨row, hrow, horder, rfl⟩ := (hunder e.term t).1 ⟨e, he, Std.ReflCmp.compare_self, ht⟩
    rw [← ValueType.eq_of_order_eq (hrows row hrow) (hsound e he) horder]
    exact hrow
  · intro hrow
    obtain ⟨e, he, horder, ht⟩ :=
      (hunder value t).2 ⟨(value, t), hrow, Std.ReflCmp.compare_self, rfl⟩
    exact ⟨e, he, ValueType.eq_of_order_eq (hsound e he) (hrows _ hrow) horder, ht⟩

end Postings

namespace Segment

/-- No row lies beyond a bound of the segment, and each bound is that of a row. -/
structure Encloses (type : ValueType) (s : Segment) (rows : List (Bytes × Token)) : Prop where
  minKey : Foremost (· ≤ ·) (rows.map Prod.snd) (some s.minKey)
  maxKey : Foremost (· ≥ ·) (rows.map Prod.snd) (some s.maxKey)
  minTerm : Foremost (fun a b => (type.order a b).isLE) (rows.map Prod.fst) (some s.minTerm)
  maxTerm : Foremost (fun a b => (type.order b a).isLE) (rows.map Prod.fst) (some s.maxTerm)

/-- What opening a segment over some rows comes to: their bounds, or the cause of the failure. -/
def Bounded (type : ValueType) (rows : List (Bytes × Token)) (file : Option DataFile) (e : Engine) :
    Except Fault Segment → Prop
  | .ok s => s.Encloses type rows
  | .error f => rows = [] ∧ f = .emptySegment ∨ rows ≠ [] ∧
      (file = none ∧ f = .incompleteSegment ∨
        ∃ d, file = some d ∧ (e.file d).refs = 0 ∧ f = .fileGone d.text)

variable {p : Postings} {rows : List (Bytes × Token)}

theorem bounded_ofPostings (h : p.Holds rows) (file : Option DataFile) (e : Engine) :
    Bounded p.type rows file e (ofPostings file p e).1 := by
  by_cases hrows : rows = []
  · subst hrows
    rw [ofPostings, h.minToken.eq_none_iff.2 rfl]
    exact .inl ⟨rfl, rfl⟩
  obtain ⟨minKey, hminKey⟩ := h.minToken.exists_eq_some (mt List.map_eq_nil_iff.1 hrows)
  obtain ⟨maxKey, hmaxKey⟩ := h.maxToken.exists_eq_some (mt List.map_eq_nil_iff.1 hrows)
  obtain ⟨minTerm, hminTerm⟩ := h.minTerm.exists_eq_some (mt List.map_eq_nil_iff.1 hrows)
  obtain ⟨maxTerm, hmaxTerm⟩ := h.maxTerm.exists_eq_some (mt List.map_eq_nil_iff.1 hrows)
  rw [ofPostings, hminKey, hmaxKey, hminTerm, hmaxTerm]
  cases file with
  | none => exact .inr ⟨hrows, .inl ⟨rfl, rfl⟩⟩
  | some d =>
    dsimp only [create]
    rw [Act.bind_apply, DataFile.retain_apply]
    by_cases hrefs : (e.file d).refs = 0
    · rw [if_pos hrefs]
      exact .inr ⟨hrows, .inr ⟨d, rfl, hrefs, rfl⟩⟩
    · rw [if_neg hrefs]
      exact ⟨hminKey ▸ h.minToken, hmaxKey ▸ h.maxToken, hminTerm ▸ h.minTerm,
        hmaxTerm ▸ h.maxTerm⟩

end Segment

namespace Postings

variable {type : ValueType} {rows : List (Bytes × Token)}

/-- Well-formed rows are all taken. Each stands in the postings, and nothing else does. The counts
and the extremes are those of the rows, and so are the bounds of a segment over the postings. Rows
in another order, or repeated, make the same postings. -/
theorem fill_faithful (hrows : ∀ row ∈ rows, type.WellFormed row.1) :
    ∃ p, ({ type } : Postings).addAll rows = .ok p ∧ p.type = type ∧ p.Holds rows ∧
      (∀ rows', (∀ row, row ∈ rows' ↔ row ∈ rows) →
        ({ type } : Postings).addAll rows' = .ok p) ∧
      ∀ file e, Segment.Bounded type rows file e (Segment.ofPostings file p e).1 := by
  obtain ⟨p, hall, htype, hp, hcounted, hmem⟩ := fill_pairs hrows
  have hholds : p.Holds rows := holds_of_pairs hp hcounted hmem
  refine ⟨p, hall, htype, hholds, fun rows' hsame => ?_, fun file e => ?_⟩
  · obtain ⟨q, hall', htype', hq, hcounted', hmem'⟩ :=
      fill_pairs fun row hrow => hrows row ((hsame row).1 hrow)
    have heq : q = p := by
      apply hq.eq_of_pairs hp hcounted' hcounted (htype'.trans htype.symm)
      exact fun row => ((hmem' row).trans (hsame row)).trans (hmem row).symm
    rw [hall', heq]
  · rw [← htype]
    exact Segment.bounded_ofPostings hholds file e

/-- Numbers that come twice, first in one order and then in the other. -/
theorem numberedRows_fill : (∀ row ∈ numberedRows ++ numberedRows.reverse,
      ValueType.bigint.WellFormed row.1) ∧
    ∃ p, ({ type := .bigint } : Postings).addAll (numberedRows ++ numberedRows.reverse) = .ok p ∧
      ({ type := .bigint } : Postings).addAll numberedRows = .ok p ∧ p.tokenCount = 4 ∧
        p.termCount = 3 := by
  have hrows : ∀ row ∈ numberedRows ++ numberedRows.reverse, ValueType.bigint.WellFormed row.1 := by
    decide
  obtain ⟨p, hall, -, hholds, hsame, -⟩ := fill_faithful hrows
  refine ⟨hrows, p, hall, hsame _ fun row => ?_, ?_, ?_⟩
  · rw [List.mem_append, List.mem_reverse, or_self]
  · rw [hholds.tokenCount]
    decide
  · rw [hholds.termCount]
    decide

end Postings
end SecondaryIndex
