import SecondaryIndex.Proofs.Stream.Merged

namespace SecondaryIndex

namespace Connective

variable {k : Connective} {a b : List Token} {sets : List (List Token)} {t : Token}

/-- The union or the intersection of two sorted sets. -/
def pair : Connective → List Token → List Token → List Token
  | or, a, b => TokenSet.ofList (a ++ b)
  | and, a, b => a.filter (· ∈ b)

/-- The union or the intersection of some sorted sets; no token without sets. -/
def gather (k : Connective) : List (List Token) → List Token
  | [] => []
  | s :: rest => rest.foldl k.pair s

theorem rising_pair (ha : Rising a) : Rising (k.pair a b) := by
  cases k with
  | or => exact TokenSet.pairwise_ofList _
  | and => exact ha.filter _

theorem rising_foldl (ha : Rising a) : Rising (sets.foldl k.pair a) := by
  induction sets generalizing a with
  | nil => exact ha
  | cons s rest ih => exact ih (rising_pair ha)

theorem rising_gather (h : ∀ s ∈ sets, Rising s) : Rising (k.gather sets) := by
  cases sets with
  | nil => exact .nil
  | cons s rest => exact rising_foldl (h s List.mem_cons_self)

theorem mem_foldl_or : t ∈ sets.foldl or.pair a ↔ t ∈ a ∨ ∃ s ∈ sets, t ∈ s := by
  induction sets generalizing a with
  | nil => simp
  | cons s rest ih =>
    rw [List.foldl_cons, ih, pair, TokenSet.mem_ofList, List.mem_append, or_assoc]
    simp

theorem mem_foldl_and : t ∈ sets.foldl and.pair a ↔ t ∈ a ∧ ∀ s ∈ sets, t ∈ s := by
  induction sets generalizing a with
  | nil => simp
  | cons s rest ih =>
    rw [List.foldl_cons, ih, pair, List.mem_filter, and_assoc, decide_eq_true_eq,
      List.forall_mem_cons]

theorem mem_gather_or : t ∈ or.gather sets ↔ ∃ s ∈ sets, t ∈ s := by
  cases sets with
  | nil => simp [gather]
  | cons s rest => simp [gather, mem_foldl_or]

theorem mem_gather_and (h : sets ≠ []) : t ∈ and.gather sets ↔ ∀ s ∈ sets, t ∈ s := by
  cases sets with
  | nil => exact absurd rfl h
  | cons s rest => rw [gather, mem_foldl_and, List.forall_mem_cons]

theorem gather_or_eq {sets' : List (List Token)} (hsub : ∀ s ∈ sets', s ∈ sets)
    (hall : ∀ s ∈ sets, s ≠ [] → s ∈ sets') (h : ∀ s ∈ sets, Rising s) :
    or.gather sets' = or.gather sets := by
  apply Rising.ext (rising_gather fun s hs => h s (hsub s hs)) (rising_gather h)
  intro t
  rw [mem_gather_or, mem_gather_or]
  constructor
  · rintro ⟨s, hs, ht⟩
    exact ⟨s, hsub s hs, ht⟩
  · rintro ⟨s, hs, ht⟩
    exact ⟨s, hall s hs (List.ne_nil_of_mem ht), ht⟩

/-- What is known of one cursor for several inputs; nothing without inputs. An intersection without
a common token range is empty. -/
def bound (k : Connective) : List Extent → Option Extent
  | [] => none
  | [x] => some x
  | x :: rest =>
    let whole := rest.foldl k.extent x
    some (if k = .and ∧ whole.high < whole.low then {} else whole)

theorem bound_cons_cons (k : Connective) (x y : Extent) (rest : List Extent) :
    k.bound (x :: y :: rest) =
      let whole := (y :: rest).foldl k.extent x
      some (if k = .and ∧ whole.high < whole.low then {} else whole) := rfl

end Connective

/-- What an extent says of a sorted set is true. -/
structure Extent.Covers (x : Extent) (ts : List Token) : Prop where
  within : ∀ t ∈ ts, x.low ≤ t ∧ t ≤ x.high
  length_le : ts.length ≤ x.count.toNat

namespace Extent

variable {k : Connective} {x y : Extent} {a b : List Token} {xs : List Extent}
  {sets : List (List Token)}

def total (xs : List Extent) : Nat := (xs.map fun x => x.count.toNat).sum

theorem within_ofTokens (ha : Rising a) :
    ∀ t ∈ a, (ofTokens a).low ≤ t ∧ t ≤ (ofTokens a).high := by
  have hopened : Opened 0 (#[].push (Cursor.ofTokens a none none)) 0 ⟨[0], a⟩ :=
    .ofTokens (Nat.zero_le _) ha none none
  have hextent := Merge.extentOf_push #[] (Cursor.ofTokens a none none)
  rw [show ofTokens a = Merge.extentOf _ _ from hextent.symm]
  exact hopened.within

theorem covers_ofTokens (ha : Rising a) (hlength : a.length < 2 ^ 64) :
    (ofTokens a).Covers a ∧ (ofTokens a).count.toNat = a.length := by
  have hcount : (ofTokens a).count.toNat = a.length := by
    unfold ofTokens
    rw [UInt64.toNat_ofNat', Nat.mod_eq_of_lt hlength]
  exact ⟨⟨within_ofTokens ha, hcount.ge⟩, hcount⟩

theorem count_le (hsmall : x.count.toNat + y.count.toNat < 2 ^ 64) :
    (k.extent x y).count.toNat ≤ x.count.toNat + y.count.toNat := by
  cases k with
  | or =>
    show (x.count + y.count).toNat ≤ _
    rw [UInt64.toNat_add, Nat.mod_eq_of_lt hsmall]
  | and =>
    show (if y.count < x.count then y.count else x.count).toNat ≤ _
    split <;> omega

theorem Covers.pair (hx : x.Covers a) (hy : y.Covers b) (ha : Rising a)
    (hsmall : x.count.toNat + y.count.toNat < 2 ^ 64) : (k.extent x y).Covers (k.pair a b) := by
  have hlengthA := hx.length_le
  have hlengthB := hy.length_le
  cases k with
  | or =>
    have hrising : Rising (TokenSet.ofList (a ++ b)) := TokenSet.pairwise_ofList _
    have hlength : (TokenSet.ofList (a ++ b)).length ≤ (a ++ b).length :=
      (hrising.nodup.subperm fun t ht => TokenSet.mem_ofList.1 ht).length_le
    constructor
    · intro t ht
      have hbounds : x.low ≤ t ∧ t ≤ x.high ∨ y.low ≤ t ∧ t ≤ y.high :=
        (List.mem_append.1 (TokenSet.mem_ofList.1 ht)).imp (hx.within t) (hy.within t)
      show (x.join y).low ≤ t ∧ t ≤ (x.join y).high
      unfold join
      constructor <;> dsimp only <;> split <;> lia
    · show (TokenSet.ofList (a ++ b)).length ≤ (x.count + y.count).toNat
      rw [UInt64.toNat_add, Nat.mod_eq_of_lt hsmall]
      rw [List.length_append] at hlength
      omega
  | and =>
    have hmem : ∀ t ∈ a.filter (· ∈ b), t ∈ a ∧ t ∈ b := by
      intro t ht
      rw [List.mem_filter, decide_eq_true_eq] at ht
      exact ht
    have hshort : (a.filter (· ∈ b)).length ≤ a.length := List.length_filter_le _ _
    have hshort' : (a.filter (· ∈ b)).length ≤ b.length :=
      ((Rising.nodup (ha.filter _)).subperm fun t ht => (hmem t ht).2).length_le
    constructor
    · intro t ht
      have hinA := hx.within t (hmem t ht).1
      have hinB := hy.within t (hmem t ht).2
      show (x.meet y).low ≤ t ∧ t ≤ (x.meet y).high
      unfold meet
      constructor <;> dsimp only <;> split <;> lia
    · show (a.filter (· ∈ b)).length ≤ (if y.count < x.count then y.count else x.count).toNat
      split <;> omega

theorem covers_foldl (h : List.Forall₂ Covers xs sets) (hx : x.Covers a) (ha : Rising a)
    (hsmall : x.count.toNat + total xs < 2 ^ 64) :
    (xs.foldl k.extent x).Covers (sets.foldl k.pair a) ∧
      (xs.foldl k.extent x).count.toNat ≤ x.count.toNat + total xs := by
  induction h generalizing x a with
  | nil => exact ⟨hx, Nat.le_add_right _ _⟩
  | @cons y s rest restSets hy _ ih =>
    have htotal : total (y :: rest) = y.count.toNat + total rest := rfl
    rw [htotal, List.foldl_cons, List.foldl_cons]
    rw [htotal] at hsmall
    have hcount := count_le (k := k) (x := x) (y := y) (by omega)
    have hpair : (k.extent x y).Covers (k.pair a s) := hx.pair hy ha (by omega)
    obtain ⟨hcovers, hle⟩ := ih hpair (Connective.rising_pair ha) (by omega)
    exact ⟨hcovers, by omega⟩

/-- What is known of a merge is true if it is true of the inputs and the counts do not wrap
around. -/
theorem covers_bound (h : List.Forall₂ Covers xs sets) (hrising : ∀ s ∈ sets, Rising s)
    (hsmall : total xs < 2 ^ 64) :
    match k.bound xs with
    | none => k.gather sets = []
    | some x => x.Covers (k.gather sets) ∧ x.count.toNat ≤ total xs := by
  cases h with
  | nil => rfl
  | @cons x s rest restSets hx hrest =>
    have htotal : total (x :: rest) = x.count.toNat + total rest := rfl
    rw [htotal] at hsmall ⊢
    cases hrest with
    | nil => exact ⟨hx, Nat.le_add_right _ _⟩
    | @cons y s' rest restSets hy hrest =>
      obtain ⟨hcovers, hle⟩ := covers_foldl (k := k) (hrest.cons hy) hx
        (hrising s List.mem_cons_self) hsmall
      rw [Connective.bound_cons_cons]
      dsimp only
      split
      next hempty =>
        have hnone : k.gather (s :: s' :: restSets) = [] := by
          rw [List.eq_nil_iff_forall_not_mem]
          intro t ht
          have := hcovers.within t ht
          lia
        rw [hnone]
        exact ⟨⟨nofun, Nat.le_refl 0⟩, Nat.zero_le _⟩
      next => exact ⟨hcovers, hle⟩

end Extent

namespace Merge

variable {cs : Array Cursor} {m : Merge} {ids : List CursorId}

/-- The extent of a merge comes from those of its inputs, one after the other. -/
def Summed (cs : Array Cursor) (m : Merge) : Prop := ∀ x rest, m.inputs = x :: rest →
  m.extent = (rest.map (extentOf cs)).foldl m.connective.extent (extentOf cs x)

theorem Summed.start (cs : Array Cursor) (k : Connective) : Summed cs { connective := k } :=
  fun _ _ h => nomatch h

theorem Summed.push (h : Summed cs m) (y : CursorId) : Summed cs (m.push y (extentOf cs y)) := by
  intro x rest hinputs
  rcases m with ⟨k, inputs, extent⟩
  cases inputs with
  | nil =>
    obtain ⟨rfl, rfl⟩ := List.cons.inj hinputs
    rfl
  | cons z zs =>
    obtain ⟨rfl, rfl⟩ := List.cons.inj hinputs
    have hextent : extent = (zs.map (extentOf cs)).foldl k.extent (extentOf cs z) := h z zs rfl
    show k.extent extent (extentOf cs y) =
      ((zs ++ [y]).map (extentOf cs)).foldl k.extent (extentOf cs z)
    rw [hextent, List.map_append, List.foldl_append]
    rfl

theorem Summed.addAll (h : Summed cs m) : Summed cs (ids.foldl (takeIn cs) m) := by
  induction ids generalizing m with
  | nil => exact h
  | cons y rest ih =>
    apply ih
    unfold takeIn
    split
    · exact h.push y
    · exact h

/-- What a merge becomes has the extent that its inputs call for. -/
theorem Summed.build {e : Engine} (h : Summed e.cursors m) : Ensures m.build e fun r e' =>
    ∀ o, r = .ok o →
      o.map (extentOf e'.cursors) = m.connective.bound (m.inputs.map (extentOf e.cursors)) := by
  unfold Merge.build
  split
  next hnone =>
    rintro _ ⟨⟩
    rw [hnone]
    rfl
  next x hone =>
    rintro _ ⟨⟩
    rw [hone]
    rfl
  next hnone hone =>
    -- Two inputs or more become a new cursor.
    obtain ⟨x, y, rest, hinputs⟩ : ∃ x y rest, m.inputs = x :: y :: rest := by
      rcases hm : m.inputs with _ | ⟨x, _ | ⟨y, rest⟩⟩
      · exact absurd hm hnone
      · exact absurd hm (hone x)
      · exact ⟨x, y, rest, rfl⟩
    rw [ensures_map, hinputs, List.map_cons, List.map_cons, Connective.bound_cons_cons,
      ← List.map_cons, ← h x (y :: rest) hinputs]
    unfold Merge.combine
    cases m.connective with
    | or =>
      rw [Cursor.ensures_openAs]
      rintro _ ⟨⟩
      rw [Option.map_some, extentOf_push]
      simp
    | and =>
      by_cases hextent : m.extent.high < m.extent.low
      · simp only [hextent, if_true, and_self]
        apply Ensures.bind (R := fun _ _ => True) trivial
        · rintro _ e₁ -
          rw [Cursor.ensures_openAs]
          rintro _ ⟨⟩
          rw [Option.map_some, extentOf_push]
          rfl
        · exact fun _ _ _ => nofun
      · simp only [hextent, if_false, and_false]
        rw [Cursor.ensures_openAs]
        rintro _ ⟨⟩
        rw [Option.map_some, extentOf_push]

end Merge

end SecondaryIndex
