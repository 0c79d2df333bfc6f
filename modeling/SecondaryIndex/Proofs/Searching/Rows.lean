import SecondaryIndex.Proofs.Entering
import SecondaryIndex.Proofs.Numbers
import SecondaryIndex.Proofs.Stream.Calls
import SecondaryIndex.Proofs.Stream.Extents

namespace SecondaryIndex

namespace Condition

variable {a : Bytes} {c : Condition}

theorem accepts_eq_true (hc : c.WellFormed) (ha : c.type.WellFormed a) :
    c.accepts a = .ok true ↔ c.meets a = true := by
  rw [accepts_eq hc ha, Except.ok.injEq]

theorem accepts_eq_false (hc : c.WellFormed) (ha : c.type.WellFormed a) :
    c.accepts a = .ok false ↔ c.meets a = false := by
  rw [accepts_eq hc ha, Except.ok.injEq]

/-- The tokens of the rows with accepted values, each row looked at on its own. -/
def scan (c : Condition) : List (Bytes × Token) → Except Fault (List Token)
  | [] => .ok []
  | (value, token) :: rest => do
    let keep ← c.accepts value
    let more ← scan c rest
    return if keep then token :: more else more

theorem scan_eq (hc : c.WellFormed) {rows : List (Bytes × Token)}
    (hrows : ∀ row ∈ rows, c.type.WellFormed row.1) :
    c.scan rows = .ok ((rows.filter fun row => c.meets row.1).map Prod.snd) := by
  induction rows with
  | nil => rfl
  | cons row rest ih =>
    obtain ⟨hrow, hrest⟩ := List.forall_mem_cons.1 hrows
    rw [scan, accepts_eq hc hrow, ih hrest, List.filter_cons]
    cases c.meets row.1 <;> rfl

end Condition

/-- All that is known beforehand of a sorted set of tokens is exact. A count is exact if it fits
into its 64 bits. -/
structure Extent.Exact (x : Extent) (ts : List Token) : Prop where
  low : x.low ∈ ts
  high : x.high ∈ ts
  within : ∀ t ∈ ts, x.low ≤ t ∧ t ≤ x.high
  count : ts.length < 2 ^ 64 → x.count.toNat = ts.length

theorem Extent.exact_ofTokens {ts : List Token} (hts : Rising ts) (hne : ts ≠ []) :
    (ofTokens ts).Exact ts where
  low := by
    change ts.headD 0 ∈ ts
    rw [List.headD_eq_head?_getD, List.head?_eq_some_head hne]
    exact List.head_mem hne
  high := by
    change ts.getLastD 0 ∈ ts
    rw [List.getLastD_eq_getLast?, List.getLast?_eq_some_getLast hne]
    exact List.getLast_mem hne
  within := within_ofTokens hts
  count hlength := (covers_ofTokens hts hlength).2

namespace Postings

variable {type : ValueType} {c : Condition} {p : Postings} {rows : List (Bytes × Token)}

theorem addAll_sound (hp : p.Sorted) (hsound : Sound p.type p.entries)
    (hrows : ∀ row ∈ rows, p.type.WellFormed row.1) : ∃ p', p.addAll rows = .ok p' ∧
      p'.Sorted ∧ Sound p'.type p'.entries ∧ p'.type = p.type ∧
        ∀ value t, Under p'.type p'.entries value t ↔
          (∃ row ∈ rows, p.type.order row.1 value = .eq ∧ t = row.2) ∨
            Under p.type p.entries value t := by
  induction rows generalizing p with
  | nil =>
    refine ⟨p, rfl, hp, hsound, rfl, fun value t => (or_iff_right ?_).symm⟩
    rintro ⟨row, hrow, -⟩
    cases hrow
  | cons row rest ih =>
    obtain ⟨hrow, hrest⟩ := List.forall_mem_cons.1 hrows
    obtain ⟨p₁, hadd, hsane, htype, hunder⟩ := sane_add hp hsound hrow row.2
    obtain ⟨p', hall, hp', hsound', htype', hunder'⟩ :=
      ih hsane.sorted hsane.sound (htype ▸ hrest)
    refine ⟨p', ?_, hp', hsound', htype'.trans htype, fun value t => ?_⟩
    · rw [addAll, hadd]
      exact hall
    · rw [hunder', hunder, htype, List.exists_mem_cons_iff, or_assoc, or_left_comm]

/-- Filled from nothing, postings hold just the rows. -/
theorem fill_sound (hrows : ∀ row ∈ rows, type.WellFormed row.1) :
    ∃ p, ({ type } : Postings).addAll rows = .ok p ∧ p.Sorted ∧ p.type = type ∧
      Sound type p.entries ∧ ∀ value t, Under type p.entries value t ↔
        ∃ row ∈ rows, type.order row.1 value = .eq ∧ t = row.2 := by
  obtain ⟨p, hall, hp, hsound, htype, hunder⟩ :=
    addAll_sound (sorted_empty type) (fun _ h => (List.not_mem_nil h).elim) hrows
  rw [htype] at hsound hunder
  refine ⟨p, hall, hp, htype, hsound, fun value t => (hunder value t).trans (or_iff_left ?_)⟩
  rintro ⟨_, he, -⟩
  cases he

theorem exists_term_iff (hsound : Sound c.type p.entries)
    (hrows : ∀ row ∈ rows, c.type.WellFormed row.1)
    (hunder : ∀ value t, Under c.type p.entries value t ↔
      ∃ row ∈ rows, c.type.order row.1 value = .eq ∧ t = row.2) (t : Token) :
    (∃ e ∈ p.entries, c.meets e.term = true ∧ t ∈ e.tokens) ↔
      ∃ row ∈ rows, c.meets row.1 = true ∧ t = row.2 := by
  constructor
  · rintro ⟨e, he, hmeets, ht⟩
    obtain ⟨row, hrow, horder, rfl⟩ := (hunder e.term t).1 ⟨e, he, Std.ReflCmp.compare_self, ht⟩
    refine ⟨row, hrow, ?_, rfl⟩
    rw [ValueType.eq_of_order_eq (hrows row hrow) (hsound e he) horder, hmeets]
  · rintro ⟨row, hrow, hmeets, rfl⟩
    obtain ⟨e, he, horder, ht⟩ :=
      (hunder row.1 row.2).2 ⟨row, hrow, Std.ReflCmp.compare_self, rfl⟩
    refine ⟨e, he, ?_, ht⟩
    rw [ValueType.eq_of_order_eq (hsound e he) (hrows row hrow) horder, hmeets]

/-- What a condition singles out in postings: the tokens under the accepted terms, each once. -/
structure Selects (p : Postings) (c : Condition) (found : List Token) : Prop where
  rising : found.Pairwise (· < ·)
  mem : ∀ t, t ∈ found ↔ ∃ e ∈ p.entries, c.accepts e.term = .ok true ∧ t ∈ e.tokens
  absent : found = [] ↔ ∀ e ∈ p.entries, c.accepts e.term = .ok false

theorem search_selects (hp : p.Sorted) (hsound : Sound p.type p.entries) (htype : c.type = p.type)
    (hc : c.WellFormed) : ∃ found, p.search c = .ok found ∧ p.Selects c found ∧
      ∀ t, t ∈ found ↔ ∃ e ∈ p.entries, c.meets e.term = true ∧ t ∈ e.tokens := by
  obtain ⟨found, hfound, hrising, hmem⟩ := search_eq hp hsound htype hc
  have hsound' : Sound c.type p.entries := htype ▸ hsound
  refine ⟨found, hfound, ⟨hrising, fun t => ?_, ?_⟩, hmem⟩
  · rw [hmem]
    constructor
    · rintro ⟨e, he, hmeets, ht⟩
      exact ⟨e, he, (Condition.accepts_eq_true hc (hsound' e he)).2 hmeets, ht⟩
    · rintro ⟨e, he, haccepts, ht⟩
      exact ⟨e, he, (Condition.accepts_eq_true hc (hsound' e he)).1 haccepts, ht⟩
  constructor
  · -- No term is there without a token.
    rintro rfl e he
    rw [Condition.accepts_eq_false hc (hsound' e he), ← Bool.not_eq_true]
    intro hmeets
    obtain ⟨t, ht⟩ := List.exists_mem_of_ne_nil _ (hp.tokened e he).1
    exact List.not_mem_nil ((hmem t).2 ⟨e, he, hmeets, ht⟩)
  · intro hnone
    apply List.eq_nil_iff_forall_not_mem.2
    intro t ht
    obtain ⟨e, he, hmeets, -⟩ := (hmem t).1 ht
    have hrejected := (Condition.accepts_eq_false hc (hsound' e he)).1 (hnone e he)
    rw [hmeets] at hrejected
    cases hrejected

end Postings

/-- What is handed out for some tokens: nothing if there are none, otherwise a new cursor that
answers as their list does and knows their extent. -/
def Offered (found : List Token) (e : Engine) (r : Except Fault (Option CursorId)) (e' : Engine) :
    Prop :=
  if found = [] then r = .ok none ∧ e' = e
  else ∃ x, r = .ok (some x) ∧ (Merge.extentOf e'.cursors x).Exact found ∧
    ∀ calls, Call.answers (Call.on x) calls e'.cursors = Call.answers Call.onList calls found

theorem Catalog.offered_searchMemtable {e : Engine} {id : IndexId} {index : ColumnIndex}
    {c : Condition} {found : List Token} (hindex : e.indexes[id]? = some index)
    (hfound : index.memtable.search c = .ok found) :
    Ensures (searchMemtable id c) e (Offered found e) := by
  rw [searchMemtable, ensures_get_bind, hindex]
  simp only [Act.ensures_settle_bind]
  rw [hfound]
  by_cases hne : found = []
  · rw [hne]
    exact ⟨rfl, rfl⟩
  have hrising : Rising found := Postings.pairwise_search hfound
  have hopened := Opened.ofTokens (Nat.le_refl e.cursors.size) hrising none none
  simp only [List.isEmpty_iff, if_neg hne, ensures_map, Cursor.ensures_openAs, Offered]
  refine ⟨_, rfl, ?_, hopened.streams.answers_eq⟩
  rw [Merge.extentOf_push]
  exact Extent.exact_ofTokens hrising hne

namespace Postings

variable {type : ValueType} {c : Condition} {rows : List (Bytes × Token)}

/-- Postings take in any well-formed rows. A search in them succeeds, selects what the condition
accepts, term by term, and agrees with a scan of the rows. Whoever searches the index gets a cursor
over just that. -/
theorem search_agrees (htype : c.type = type) (hc : c.WellFormed)
    (hrows : ∀ row ∈ rows, type.WellFormed row.1) :
    ∃ p found hits, ({ type } : Postings).addAll rows = .ok p ∧ p.search c = .ok found ∧
      p.Selects c found ∧ c.scan rows = .ok hits ∧ found = TokenSet.ofList hits ∧
        ∀ (e : Engine) id index, e.indexes[id]? = some index → index.memtable = p →
          Ensures (Catalog.searchMemtable id c) e (Offered found e) := by
  subst htype
  obtain ⟨p, hall, hp, htype, hsound, hunder⟩ := fill_sound hrows
  obtain ⟨found, hfound, hselects, hmem⟩ := search_selects hp (htype ▸ hsound) htype.symm hc
  refine ⟨p, found, _, hall, hfound, hselects, Condition.scan_eq hc hrows, ?_, ?_⟩
  · apply Rising.ext hselects.rising (TokenSet.pairwise_ofList _)
    intro t
    rw [hmem, exists_term_iff hsound hrows hunder, TokenSet.mem_ofList, List.mem_map]
    simp only [List.mem_filter, and_assoc, eq_comm]
  · rintro e id index hindex rfl
    exact Catalog.offered_searchMemtable hindex hfound

/-- Numbers entered out of order, one of them twice. -/
def numberedRows : List (Bytes × Token) :=
  [(Bigint.encode 5, 3), (Bigint.encode (-2), 1), (Bigint.encode 9, 2), (Bigint.encode 5, 2)]

def aboveMinusTwo : Condition :=
  ⟨"n", .bigint, none, .range (some ⟨Bigint.encode (-2), false⟩) (some ⟨Bigint.encode 9, true⟩)⟩

example : (do (← ({ type := .bigint } : Postings).addAll numberedRows).search aboveMinusTwo) =
    .ok [2, 3] := by
  rfl

theorem numberedRows_search : aboveMinusTwo.type = .bigint ∧ aboveMinusTwo.WellFormed ∧
    (∀ row ∈ numberedRows, ValueType.bigint.WellFormed row.1) ∧
    ∃ p found hits, ({ type := .bigint } : Postings).addAll numberedRows = .ok p ∧
      p.search aboveMinusTwo = .ok found ∧ p.Selects aboveMinusTwo found ∧
        aboveMinusTwo.scan numberedRows = .ok hits ∧ found = TokenSet.ofList hits ∧
          ∀ (e : Engine) id index, e.indexes[id]? = some index → index.memtable = p →
            Ensures (Catalog.searchMemtable id aboveMinusTwo) e (Offered found e) := by
  have hc : aboveMinusTwo.WellFormed := by
    refine ⟨?_, ?_, ?_⟩
    · rintro b ⟨⟩
      decide
    · rintro b ⟨⟩
      decide
    · rintro v (hv | hv) <;> cases hv
  have hrows : ∀ row ∈ numberedRows, ValueType.bigint.WellFormed row.1 := by decide
  exact ⟨rfl, hc, hrows, search_agrees rfl hc hrows⟩

end Postings
end SecondaryIndex
