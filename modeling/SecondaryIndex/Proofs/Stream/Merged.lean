import SecondaryIndex.Proofs.Stream.Closing

namespace SecondaryIndex

namespace Connective

variable {k : Connective} {ps : List Part} {p : Part} {t : Token}

theorem joins_singleton : k.Joins [p] t ↔ t ∈ p.tokens := by
  cases k <;> simp [Joins, Within]

theorem not_joins_nil : ¬ k.Joins [] t := fun h => h.1 rfl

theorem or_joins : Connective.or.Joins ps t ↔ ∃ p ∈ ps, t ∈ p.tokens :=
  ⟨And.right, fun h => ⟨fun hnil => by simp [hnil] at h, h⟩⟩

theorem or_within_concat : Connective.or.Within (ps ++ [p]) t ↔
    Connective.or.Within ps t ∨ t ∈ p.tokens := by
  simp only [Within, List.mem_append, List.mem_singleton, or_and_right, exists_or, exists_eq_left]

theorem and_within_concat : Connective.and.Within (ps ++ [p]) t ↔
    Connective.and.Within ps t ∧ t ∈ p.tokens := by
  simp only [Within, List.forall_mem_append, List.forall_mem_singleton]

end Connective

theorem Extent.mem_join {x y : Extent} {t : Token}
    (h : x.low ≤ t ∧ t ≤ x.high ∨ y.low ≤ t ∧ t ≤ y.high) :
    (x.join y).low ≤ t ∧ t ≤ (x.join y).high := by
  rw [Extent.join]
  constructor <;> simp only <;> split <;> lia

theorem Extent.mem_meet {x y : Extent} {t : Token} (hx : x.low ≤ t ∧ t ≤ x.high)
    (hy : y.low ≤ t ∧ t ≤ y.high) : (x.meet y).low ≤ t ∧ t ≤ (x.meet y).high := by
  rw [Extent.meet]
  constructor <;> simp only <;> split <;> lia

theorem Extent.count_meet (x y : Extent) :
    (x.meet y).count = x.count ∨ (x.meet y).count = y.count := by
  rw [Extent.meet]
  simp only
  split
  · exact .inr rfl
  · exact .inl rfl

def Counts (cs : Array Cursor) (ids : List Nat) (ps : List Part) : Prop :=
  List.Forall₂ (fun x p => p.tokens ≠ [] → Merge.admits cs x) ids ps

theorem Counts.admits {cs : Array Cursor} {ids : List Nat} {ps : List Part}
    (h : Counts cs ids ps) (hne : ∀ p ∈ ps, p.tokens ≠ []) : ∀ x ∈ ids, Merge.admits cs x := by
  unfold Counts at h
  induction h with
  | nil => exact nofun
  | cons hx _ ih =>
    rw [List.forall_mem_cons] at hne ⊢
    exact ⟨hx hne.1, ih hne.2⟩

/-- A merge that has taken in some streams and bounds what it will give. -/
structure Fed (n : Nat) (cs : Array Cursor) (m : Merge) (ps : List Part) : Prop where
  inputs : Inputs n cs m.inputs ps
  within : ∀ t, m.connective.Joins ps t → m.extent.low ≤ t ∧ t ≤ m.extent.high

namespace Fed

variable {n x : Nat} {cs cs' : Array Cursor} {m : Merge} {ids : List Nat} {ps qs : List Part}
  {p : Part}

theorem start (n : Nat) (cs : Array Cursor) (k : Connective) : Fed n cs { connective := k } [] where
  inputs := .nil n cs
  within _ ht := absurd ht Connective.not_joins_nil

theorem frame (h : Fed n cs m ps) (hcs : ∀ i ∈ Part.allReads ps, cs'[i]? = cs[i]?) :
    Fed n cs' m ps := { h with inputs := h.inputs.frame hcs }

theorem push (h : Fed n cs m ps) (hx : Opened n cs x p)
    (hdisjoint : ∀ i ∈ Part.allReads ps, i ∉ p.reads) :
    Fed n cs (m.push x (Merge.extentOf cs x)) (ps ++ [p]) where
  inputs := h.inputs.concat hx hdisjoint
  within t ht := by
    have hlength := h.inputs.each.length_eq
    have hwithin := hx.within t
    rcases m with ⟨k, inputs, extent⟩
    cases inputs with
    | nil =>
      obtain rfl : ps = [] := List.length_eq_zero_iff.1 hlength.symm
      rw [List.nil_append, Connective.joins_singleton] at ht
      exact hwithin ht
    | cons y rest =>
      have hne : ps ≠ [] := by
        rintro rfl
        cases hlength
      have hbefore := h.within t
      cases k with
      | or =>
        exact Extent.mem_join <|
          (Connective.or_within_concat.1 ht.2).imp (fun h => hbefore ⟨hne, h⟩) hwithin
      | and =>
        obtain ⟨hall, hp⟩ := Connective.and_within_concat.1 ht.2
        exact Extent.mem_meet (hbefore ⟨hne, hall⟩) (hwithin hp)

theorem takeIn (h : Fed n cs m ps) (hx : Opened n cs x p)
    (hdisjoint : ∀ i ∈ Part.allReads ps, i ∉ p.reads) :
    Fed n cs (m.takeIn cs x) (ps ++ if Merge.admits cs x then [p] else []) := by
  unfold Merge.takeIn
  split
  · exact h.push hx hdisjoint
  · rw [List.append_nil]
    exact h

theorem addAll (h : Fed n cs m ps) (hids : Inputs n cs ids qs)
    (hdisjoint : ∀ i ∈ Part.allReads ps, i ∉ Part.allReads qs) :
    ∃ taken, taken.Sublist qs ∧ Fed n cs (ids.foldl (Merge.takeIn cs) m) (ps ++ taken) ∧
      (Counts cs ids qs → ∀ p ∈ qs, p.tokens ≠ [] → p ∈ taken) ∧
        ((∀ x ∈ ids, Merge.admits cs x) → taken = qs) := by
  induction ids generalizing m ps qs with
  | nil =>
    obtain ⟨heach, -⟩ := hids
    cases heach
    exact ⟨[], .slnil, by rwa [List.append_nil], fun _ => nofun, fun _ => rfl⟩
  | cons x rest ih =>
    obtain ⟨heach, hdistinct⟩ := hids
    cases heach with
    | @cons _ p _ qs hx hrest =>
      rw [Part.allReads, List.flatMap_cons, List.nodup_append] at hdistinct
      have hsplit : ∀ {i}, i ∈ Part.allReads (p :: qs) ↔ i ∈ p.reads ∨ i ∈ Part.allReads qs :=
        List.mem_append
      have hfirst := h.takeIn hx fun i hi hi' => hdisjoint i hi (hsplit.2 (.inl hi'))
      obtain ⟨taken, hsub, hfed, htaken⟩ := ih hfirst ⟨hrest, hdistinct.2.1⟩ (by
        intro i hi hi'
        rw [Part.allReads, List.flatMap_append, List.mem_append] at hi
        rcases hi with hi | hi
        · exact hdisjoint i hi (hsplit.2 (.inr hi'))
        · split at hi
          · rw [List.flatMap_singleton] at hi
            exact hdistinct.2.2 i hi i hi' rfl
          · cases hi)
      rw [List.append_assoc] at hfed
      obtain ⟨hmem, hwhole⟩ := htaken
      refine ⟨_, ?_, hfed, fun hcounts => ?_, fun hadmits => ?_⟩
      · split
        · exact hsub.cons_cons p
        · exact hsub.cons p
      · obtain ⟨hp, hqs⟩ := List.forall₂_cons.1 hcounts
        rw [List.forall_mem_cons]
        refine ⟨fun hne => ?_, fun q hq hne => List.mem_append_right _ (hmem hqs q hq hne)⟩
        rw [if_pos (hp hne)]
        simp
      · obtain ⟨hx, hrest⟩ := List.forall_mem_cons.1 hadmits
        rw [if_pos hx, hwhole hrest, List.singleton_append]

end Fed

def tally (cs : Array Cursor) (ids : List Nat) : Nat :=
  (ids.map fun x => (Merge.extentOf cs x).count.toNat).sum

theorem tally_append (cs : Array Cursor) (ids ids' : List Nat) :
    tally cs (ids ++ ids') = tally cs ids + tally cs ids' := by
  rw [tally, List.map_append, List.sum_append, tally, tally]

theorem tally_singleton (cs : Array Cursor) (x : Nat) :
    tally cs [x] = (Merge.extentOf cs x).count.toNat := by
  rw [tally, List.map_singleton, List.sum_singleton]

theorem tally_cons (cs : Array Cursor) (x : Nat) (ids : List Nat) :
    tally cs (x :: ids) = (Merge.extentOf cs x).count.toNat + tally cs ids := by
  rw [tally, List.map_cons, List.sum_cons, tally]

theorem tally_congr {cs cs' : Array Cursor} {ids : List Nat} (h : ∀ x ∈ ids, cs'[x]? = cs[x]?) :
    tally cs' ids = tally cs ids := by
  rw [tally, tally, List.map_congr_left fun x hx => by rw [Merge.extentOf_congr (h x hx)]]

theorem tally_filter_le (cs : Array Cursor) (f : Nat → Bool) (ids : List Nat) :
    tally cs (ids.filter f) ≤ tally cs ids :=
  (List.filter_sublist.map _).sum_le_sum fun _ _ => Nat.zero_le _

/-- Counts that did not wrap around: a stream that has tokens counts some. -/
structure Counted (V : Nat) (cs : Array Cursor) (x : Nat) (p : Part) : Prop where
  le : (Merge.extentOf cs x).count.toNat ≤ V
  ne : p.tokens ≠ [] → Merge.admits cs x

structure Tallied (cs : Array Cursor) (m : Merge) : Prop where
  le : m.extent.count.toNat ≤ tally cs m.inputs
  ne : m.inputs ≠ [] → m.extent.count ≠ 0
  admitted : ∀ x ∈ m.inputs, Merge.admits cs x

namespace Tallied

variable {cs : Array Cursor} {m : Merge} {x : Nat} {ids : List Nat}

theorem start (cs : Array Cursor) (k : Connective) : Tallied cs { connective := k } :=
  ⟨Nat.le_refl 0, fun h => absurd rfl h, nofun⟩

theorem push (h : Tallied cs m) (hx : Merge.admits cs x)
    (hV : tally cs (m.inputs ++ [x]) < 2 ^ 64) : Tallied cs (m.push x (Merge.extentOf cs x)) := by
  have hadmitted := List.forall_mem_append.2 ⟨h.admitted, List.forall_mem_singleton.2 hx⟩
  have hcount : (Merge.extentOf cs x).count ≠ 0 := by simpa [Merge.admits] using hx
  rw [tally_append, tally_singleton] at hV
  rcases m with ⟨k, inputs, extent⟩
  cases inputs with
  | nil => exact ⟨(tally_singleton cs x).ge, fun _ => hcount, hadmitted⟩
  | cons y rest =>
    have hle := h.le
    have hne := h.ne (List.cons_ne_nil y rest)
    simp only at hle hne hV
    cases k with
    | or =>
      have hsum : (extent.count + (Merge.extentOf cs x).count).toNat =
          extent.count.toNat + (Merge.extentOf cs x).count.toNat := by
        rw [UInt64.toNat_add, Nat.mod_eq_of_lt (by omega)]
      refine ⟨?_, fun _ hzero => hne ?_, hadmitted⟩
      · change (extent.count + (Merge.extentOf cs x).count).toNat ≤ tally cs (y :: rest ++ [x])
        rw [tally_append, tally_singleton, hsum]
        omega
      · have hzero' : (extent.count + (Merge.extentOf cs x).count).toNat = 0 := by
          rw [show extent.count + (Merge.extentOf cs x).count = 0 from hzero]
          rfl
        exact UInt64.toNat_inj.1 (by rw [UInt64.toNat_zero]; omega)
    | and =>
      have hmeet := Extent.count_meet extent (Merge.extentOf cs x)
      refine ⟨?_, fun _ => ?_, hadmitted⟩
      · change (extent.meet (Merge.extentOf cs x)).count.toNat ≤ tally cs (y :: rest ++ [x])
        rw [tally_append, tally_singleton]
        rcases hmeet with hmeet | hmeet <;> rw [hmeet] <;> omega
      · change (extent.meet (Merge.extentOf cs x)).count ≠ 0
        rcases hmeet with hmeet | hmeet <;> rw [hmeet]
        · exact hne
        · exact hcount

theorem addAll (h : Tallied cs m) (hV : tally cs (m.inputs ++ ids) < 2 ^ 64) :
    Tallied cs (ids.foldl (Merge.takeIn cs) m) := by
  induction ids generalizing m with
  | nil => exact h
  | cons x rest ih =>
    rw [List.foldl_cons]
    rw [← List.singleton_append, ← List.append_assoc, tally_append] at hV
    refine ih ?_ ?_
    · unfold Merge.takeIn
      split
      next hx => exact h.push hx (by omega)
      next => exact h
    · rw [Merge.takeIn_inputs, List.filter_singleton, Bool.cond_eq_ite]
      split
      · rwa [tally_append]
      · rw [List.append_nil, tally_append]
        rw [tally_append] at hV
        omega

theorem frame {cs' : Array Cursor} (h : Tallied cs m)
    (hcs : ∀ x ∈ m.inputs, cs'[x]? = cs[x]?) : Tallied cs' m := by
  refine ⟨tally_congr hcs ▸ h.le, h.ne, fun x hx => ?_⟩
  rw [Merge.admits_congr (hcs x hx)]
  exact h.admitted x hx

end Tallied

namespace Fed

open Cursor

variable {n : Nat} {e : Engine} {m : Merge} {ps : List Part}

structure Stands (n : Nat) (e e' : Engine) (m : Merge) (ps : List Part) (x : Nat) (p : Part) :
    Prop where
  opened : Opened n e'.cursors x p
  tokens : ∀ t, t ∈ p.tokens ↔ m.connective.Joins ps t
  quiet : Quiet e.cursors (Part.allReads ps) → Quiet e'.cursors p.reads
  counted : Tallied e.cursors m → Counted (tally e.cursors m.inputs) e'.cursors x p

theorem stands_push (h : Fed n e.cursors m ps) (hn : n ≤ e.cursors.size) {source : Source}
    {q : Part} (hsource : source.closeFault = none)
    (hs : Sourced (Streams e.cursors e.cursors.size) { extent := m.extent, source } q)
    (hrising : Rising q.tokens) (hreads : q.reads = Part.allReads ps)
    (htokens : ∀ t, t ∈ q.tokens ↔ m.connective.Joins ps t) (hne : m.inputs ≠ []) :
    Stands n e { e with cursors := e.cursors.push { extent := m.extent, source } } m ps
      e.cursors.size ⟨e.cursors.size :: q.reads, q.tokens⟩ where
  opened := by
    refine .push hn rfl rfl hs hrising (hreads ▸ h.inputs.distinct) ?_ ?_
    · rw [hreads]
      exact h.inputs.mem_reads
    · exact fun t ht => h.within t ((htokens t).1 ht)
  tokens := htokens
  quiet hquiet := by
    rw [hreads, ← List.singleton_append]
    refine (Quiet.push _ hsource).append (hquiet.frame fun i hi => ?_)
    exact Beyond.push _ _ i (h.inputs.mem_reads i hi).2
  counted ht := by
    have hextent := Merge.extentOf_push e.cursors { extent := m.extent, source }
    refine ⟨?_, fun _ => ?_⟩
    · rw [hextent]
      exact ht.le
    · simp only [Merge.admits, hextent]
      simpa using ht.ne hne

theorem stands_closed (h : Fed n e.cursors m ps) (hn : n ≤ e.cursors.size) {e' : Engine}
    (hextent : m.extent.high < m.extent.low)
    (hb : Beside (Part.allReads ps) e.cursors e'.cursors) :
    Beyond n e.cursors (e'.cursors.push Cursor.empty) ∧
      Stands n e { e' with cursors := e'.cursors.push Cursor.empty } m ps e'.cursors.size
        ⟨[e'.cursors.size], []⟩ := by
  have hbeyond : Beyond n e.cursors e'.cursors :=
    .of_beside hb fun i hi => (h.inputs.mem_reads i hi).1
  have hsize := hbeyond.le_size hn
  refine ⟨hbeyond.trans ((Beyond.push _ _).mono hsize), .ofTokens hsize .nil none none, fun t => ?_,
    fun _ => ?_, fun _ => ?_⟩
  · refine ⟨nofun, fun ht => ?_⟩
    have := h.within t ht
    lia
  · exact Quiet.push _ rfl
  · refine ⟨?_, nofun⟩
    rw [Merge.extentOf_push]
    exact Nat.zero_le _

theorem stands_or (h : Fed n e.cursors m ps) (hn : n ≤ e.cursors.size)
    (hk : m.connective = .or) (hne : m.inputs ≠ []) :
    ∃ p, Stands n e
      { e with cursors := e.cursors.push { extent := m.extent, source := .union m.inputs } } m ps
      e.cursors.size p := by
  refine ⟨_, h.stands_push hn
    (q := ⟨Part.allReads ps, TokenSet.ofList (ps.flatMap Part.tokens)⟩) rfl ?_
    (TokenSet.pairwise_ofList _) rfl ?_ hne⟩
  · refine ⟨ps, h.inputs.streams, rfl, fun t => ?_⟩
    rw [TokenSet.mem_ofList, List.mem_flatMap]
  · intro t
    rw [hk, TokenSet.mem_ofList, List.mem_flatMap, Connective.or_joins]

theorem stands_and (h : Fed n e.cursors m ps) (hn : n ≤ e.cursors.size)
    (hk : m.connective = .and) (hne : m.inputs ≠ []) :
    ∃ p, Stands n e
      { e with
        cursors := e.cursors.push { extent := m.extent, source := .intersection m.inputs } }
      m ps e.cursors.size p := by
  have hstreams := h.inputs.streams
  cases ps with
  | nil => exact absurd (List.length_eq_zero_iff.1 h.inputs.each.length_eq) hne
  | cons first rest =>
    have hfirst : Rising first.tokens := by
      obtain ⟨x, -, hx⟩ := exists_left hstreams first (by simp)
      exact hx.rising
    have hall : ∀ t, t ∈ first.tokens.filter (fun t => rest.all fun p => t ∈ p.tokens) ↔
        ∀ p ∈ first :: rest, t ∈ p.tokens := by
      intro t
      rw [List.mem_filter, List.all_eq_true, List.forall_mem_cons]
      simp only [decide_eq_true_eq]
    refine ⟨_, h.stands_push hn
      (q := ⟨Part.allReads (first :: rest),
        first.tokens.filter fun t => rest.all fun p => t ∈ p.tokens⟩) rfl ?_
      (hfirst.filter _) rfl ?_ hne⟩
    · refine ⟨first :: rest, hstreams, rfl, List.cons_ne_nil _ _, hall,
        fun t ht => (h.within t ?_).1⟩
      rw [hk]
      exact ⟨List.cons_ne_nil _ _, (hall t).1 ht⟩
    · intro t
      rw [hall, hk]
      exact ⟨fun ht => ⟨List.cons_ne_nil _ _, ht⟩, And.right⟩

theorem combine (h : Fed n e.cursors m ps) (hn : n ≤ e.cursors.size) (hne : m.inputs ≠ []) :
    Ensures m.combine e fun
      | .error _, _ => ¬ Quiet e.cursors (Part.allReads ps)
      | .ok x, e' => Beyond n e.cursors e'.cursors ∧ ∃ p, Stands n e e' m ps x p := by
  rw [Merge.combine]
  cases hk : m.connective with
  | or =>
    simp only
    rw [ensures_openAs]
    exact ⟨(Beyond.push _ _).mono hn, h.stands_or hn hk hne⟩
  | and =>
    simp only
    by_cases hextent : m.extent.high < m.extent.low
    · rw [if_pos hextent]
      refine (closed_all (R := Opened n) .frame (fun hx => closed_closeWithin hx.streams)
        h.inputs.each h.inputs.distinct).bind ?_ ?_
      · rintro _ e₁ ⟨hb, -⟩
        rw [ensures_openAs]
        exact ⟨(h.stands_closed hn hextent hb).1, _, (h.stands_closed hn hextent hb).2⟩
      · rintro f e₁ ⟨-, hok⟩ hquiet
        cases hok hquiet
    · rw [if_neg hextent, ensures_openAs]
      exact ⟨(Beyond.push _ _).mono hn, h.stands_and hn hk hne⟩

/-- One cursor for all inputs gives what the merge of their streams is. -/
theorem build (h : Fed n e.cursors m ps) (hn : n ≤ e.cursors.size) :
    Ensures m.build e fun
      | .error _, _ => ¬ Quiet e.cursors (Part.allReads ps)
      | .ok none, e' => ps = [] ∧ e' = e
      | .ok (some x), e' => Beyond n e.cursors e'.cursors ∧ ∃ p, Stands n e e' m ps x p := by
  have hlength := h.inputs.each.length_eq
  rw [Merge.build]
  split
  next hnil =>
    rw [hnil] at hlength
    exact ⟨List.length_eq_zero_iff.1 hlength.symm, rfl⟩
  next x hx =>
    obtain ⟨p, rfl⟩ := List.length_eq_one_iff.1 (by rw [← hlength, hx]; rfl)
    have heach := h.inputs.each
    rw [hx] at heach
    cases heach with
    | cons hopened _ =>
      refine ⟨.refl _ _, p, hopened, fun t => Connective.joins_singleton.symm, fun hquiet => ?_,
        fun ht => ⟨?_, fun _ => ht.admitted x (by simp [hx])⟩⟩
      · exact hquiet.mono fun i hi => Part.mem_allReads.2 ⟨p, by simp, hi⟩
      · rw [hx, tally_singleton]
        exact Nat.le_refl _
  next hne _ =>
    rw [ensures_map]
    refine (h.combine hn hne).mono ?_
    rintro (f | x) e₁ h₁ <;> exact h₁

end Fed

end SecondaryIndex
