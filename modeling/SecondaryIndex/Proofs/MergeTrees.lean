import SecondaryIndex.Proofs.Stream.Calls
import SecondaryIndex.Proofs.Stream.Extents

namespace SecondaryIndex

open Cursor

/-- Cursors as they are put together, each used once. -/
inductive MergeTree
  | absent
  | leaf (tokens : List Token)
  | node (k : Connective) (inputs : List MergeTree)

namespace MergeTree

/-- What holds of leaves, and of a node if it holds of its inputs, holds of every tree. -/
@[elab_as_elim]
theorem induct {P : MergeTree → Prop} (absent : P absent) (leaf : ∀ ts, P (leaf ts))
    (node : ∀ k inputs, (∀ t ∈ inputs, P t) → P (node k inputs)) (t : MergeTree) : P t :=
  t.rec absent leaf node (fun _ => List.not_mem_nil.elim)
    fun _ _ ht hrest => List.forall_mem_cons.2 ⟨ht, hrest⟩

mutual

def size : MergeTree → Nat
  | absent => 0
  | leaf ts => ts.length
  | node _ inputs => sizes inputs

def sizes : List MergeTree → Nat
  | [] => 0
  | t :: rest => t.size + sizes rest

end

mutual

def members : MergeTree → List Token
  | absent => []
  | leaf ts => ts
  | node k inputs => k.gather (sets inputs)

def sets : List MergeTree → List (List Token)
  | [] => []
  | t :: rest => t.members :: sets rest

end

mutual

/-- What the cursor of a tree says of itself; nothing if the tree has no cursor. -/
def extent : MergeTree → Option Extent
  | absent => none
  | leaf ts => some (.ofTokens ts)
  | node k inputs => k.bound ((extents inputs).filter (·.count ≠ 0))

def extents : List MergeTree → List Extent
  | [] => []
  | t :: rest => t.extent.toList ++ extents rest

end

mutual

/-- The cursor of a tree. The inputs of a node are opened first. -/
def opened : MergeTree → Act (Option CursorId)
  | absent => return none
  | leaf ts => some <$> (Cursor.ofTokens ts none none).openAs
  | node k inputs => do (← ({ connective := k } : Merge).addAll (← openedAll inputs)).build

def openedAll : List MergeTree → Act (List (Option CursorId))
  | [] => return []
  | t :: rest => do return (← t.opened) :: (← openedAll rest)

end

mutual

/-- All leaves rise, and the inputs of an intersection count some tokens. -/
def Proper : MergeTree → Prop
  | absent => True
  | leaf ts => Rising ts
  | node k inputs => AllProper inputs ∧
      (k = .and → ∀ t ∈ inputs, ∃ x, t.extent = some x ∧ x.count ≠ 0)

def AllProper : List MergeTree → Prop
  | [] => True
  | t :: rest => t.Proper ∧ AllProper rest

end

variable {t : MergeTree} {k : Connective} {inputs : List MergeTree}

theorem sets_eq : sets inputs = inputs.map members := by
  induction inputs with
  | nil => rfl
  | cons t rest ih => rw [sets, ih, List.map_cons]

theorem size_le_sizes (h : t ∈ inputs) : t.size ≤ sizes inputs := by
  induction inputs with
  | nil => cases h
  | cons u rest ih =>
    rw [sizes]
    rcases List.mem_cons.1 h with rfl | h
    · exact Nat.le_add_right _ _
    · exact (ih h).trans (Nat.le_add_left _ _)

theorem proper_of_allProper (h : AllProper inputs) : ∀ t ∈ inputs, t.Proper := by
  induction inputs with
  | nil => exact nofun
  | cons u rest ih => exact List.forall_mem_cons.2 ⟨h.1, ih h.2⟩

/-- What a tree hands to a merge: its tokens with what is known of them. -/
def parts (t : MergeTree) : List (Extent × List Token) :=
  t.extent.toList.map fun x => (x, t.members)

theorem map_fst_parts (t : MergeTree) : t.parts.map Prod.fst = t.extent.toList := by
  unfold parts
  rw [List.map_map]
  exact List.map_id _

theorem extents_eq : extents inputs = (inputs.flatMap parts).map Prod.fst := by
  induction inputs with
  | nil => rfl
  | cons t rest ih =>
    rw [extents, ih, List.flatMap_cons, List.map_append, map_fst_parts]

theorem parts_of_extent {x : Extent} (h : t.extent = some x) : t.parts = [(x, t.members)] := by
  unfold parts
  rw [h]
  rfl

theorem mem_parts {q : Extent × List Token} (h : q ∈ t.parts) :
    t.extent = some q.1 ∧ q.2 = t.members := by
  unfold parts at h
  obtain ⟨x, hx, rfl⟩ := List.mem_map.1 h
  exact ⟨Option.mem_toList.1 hx, rfl⟩

/-- A tree without a cursor has no tokens, and the extent of a cursor covers those of its tree. -/
structure Bounded (t : MergeTree) : Prop where
  rising : Rising t.members
  absent : t.extent = none → t.members = []
  covers : ∀ x, t.extent = some x → x.Covers t.members ∧ x.count.toNat ≤ t.size

theorem parts_of_counted (h : ∀ t ∈ inputs, ∃ x, t.extent = some x ∧ x.count ≠ 0) :
    (inputs.flatMap parts).map Prod.snd = sets inputs ∧
      ∀ q ∈ inputs.flatMap parts, q.1.count ≠ 0 := by
  induction inputs with
  | nil => exact ⟨rfl, nofun⟩
  | cons t rest ih =>
    obtain ⟨⟨x, hx, hcount⟩, hrest⟩ := List.forall_mem_cons.1 h
    obtain ⟨hsets, hcounts⟩ := ih hrest
    rw [List.flatMap_cons, parts_of_extent hx]
    constructor
    · rw [List.map_append, hsets, sets]
      rfl
    · exact List.forall_mem_cons.2 ⟨hcount, hcounts⟩

section

variable (h : ∀ t ∈ inputs, t.Bounded)

include h

theorem rising_sets : ∀ s ∈ sets inputs, Rising s := by
  intro s hs
  rw [sets_eq] at hs
  obtain ⟨t, ht, rfl⟩ := List.mem_map.1 hs
  exact (h t ht).rising

theorem covers_parts : ∀ q ∈ inputs.flatMap parts, q.1.Covers q.2 ∧ q.2 ∈ sets inputs := by
  intro q hq
  obtain ⟨t, ht, hq⟩ := List.mem_flatMap.1 hq
  obtain ⟨hextent, hmembers⟩ := mem_parts hq
  rw [hmembers, sets_eq]
  exact ⟨((h t ht).covers q.1 hextent).1, List.mem_map_of_mem ht⟩

theorem mem_parts_of_ne_nil {s : List Token} (hs : s ∈ sets inputs) (hne : s ≠ []) :
    ∃ q ∈ inputs.flatMap parts, q.2 = s ∧ q.1.count ≠ 0 := by
  rw [sets_eq] at hs
  obtain ⟨t, ht, rfl⟩ := List.mem_map.1 hs
  cases hextent : t.extent with
  | none => exact absurd ((h t ht).absent hextent) hne
  | some x =>
    have hlength := ((h t ht).covers x hextent).1.length_le
    have hpos := List.length_pos_iff.2 hne
    refine ⟨(x, t.members), List.mem_flatMap.2 ⟨t, ht, ?_⟩, rfl, fun hzero => ?_⟩
    · rw [parts_of_extent hextent]
      exact List.mem_cons_self
    · have hzero' : x.count.toNat = 0 := by
        rw [show x.count = 0 from hzero]
        rfl
      omega

theorem total_parts_le : Extent.total ((inputs.flatMap parts).map Prod.fst) ≤ sizes inputs := by
  induction inputs with
  | nil => exact Nat.le_refl 0
  | cons t rest ih =>
    obtain ⟨ht, hrest⟩ := List.forall_mem_cons.1 h
    have hfirst : Extent.total (t.parts.map Prod.fst) ≤ t.size := by
      cases hextent : t.extent with
      | none =>
        unfold parts
        rw [hextent]
        exact Nat.zero_le _
      | some x =>
        rw [parts_of_extent hextent]
        exact (ht.covers x hextent).2
    have hsum : Extent.total (((t :: rest).flatMap parts).map Prod.fst) =
        Extent.total (t.parts.map Prod.fst) + Extent.total ((rest.flatMap parts).map Prod.fst) := by
      unfold Extent.total
      rw [List.flatMap_cons, List.map_append, List.map_append, List.sum_append]
    rw [hsum, sizes]
    exact Nat.add_le_add hfirst (ih hrest)

theorem gather_counted (hk : k = .and → ∀ t ∈ inputs, ∃ x, t.extent = some x ∧ x.count ≠ 0) :
    k.gather (((inputs.flatMap parts).filter (·.1.count ≠ 0)).map Prod.snd) =
      k.gather (sets inputs) := by
  cases k with
  | or =>
    apply Connective.gather_or_eq ?_ ?_ (rising_sets h)
    · intro s hs
      obtain ⟨q, hq, rfl⟩ := List.mem_map.1 hs
      exact (covers_parts h q (List.mem_filter.1 hq).1).2
    · intro s hs hne
      obtain ⟨q, hq, rfl, hcount⟩ := mem_parts_of_ne_nil h hs hne
      exact List.mem_map_of_mem (List.mem_filter.2 ⟨hq, by simpa using hcount⟩)
  | and =>
    obtain ⟨hsets, hcounts⟩ := parts_of_counted (hk rfl)
    rw [List.filter_eq_self.2 (by simpa using hcounts), hsets]

theorem bounded_node (hk : k = .and → ∀ t ∈ inputs, ∃ x, t.extent = some x ∧ x.count ≠ 0)
    (hsize : sizes inputs < 2 ^ 64) : (node k inputs).Bounded := by
  have hgather := gather_counted h hk
  have hextent : (node k inputs).extent =
      k.bound (((inputs.flatMap parts).filter (·.1.count ≠ 0)).map Prod.fst) := by
    rw [extent, extents_eq, List.filter_map]
    rfl
  generalize hcounted : (inputs.flatMap parts).filter (·.1.count ≠ 0) = counted at hgather hextent
  have hmem : ∀ q ∈ counted, q ∈ inputs.flatMap parts := fun q hq =>
    (List.mem_filter.1 (hcounted ▸ hq)).1
  have hcovers : List.Forall₂ Extent.Covers (counted.map Prod.fst) (counted.map Prod.snd) := by
    rw [List.forall₂_map_left_iff, List.forall₂_map_right_iff, List.forall₂_same]
    exact fun q hq => (covers_parts h q (hmem q hq)).1
  have hrising : ∀ s ∈ counted.map Prod.snd, Rising s := by
    intro s hs
    obtain ⟨q, hq, rfl⟩ := List.mem_map.1 hs
    exact rising_sets h q.2 (covers_parts h q (hmem q hq)).2
  have htotal : Extent.total (counted.map Prod.fst) ≤ sizes inputs := by
    apply Nat.le_trans ?_ (total_parts_le h)
    rw [← hcounted]
    exact ((List.filter_sublist.map _).map _).sum_le_sum fun _ _ => Nat.zero_le _
  have hbound := Extent.covers_bound (k := k) hcovers hrising (by omega)
  rw [hgather] at hbound
  refine ⟨Connective.rising_gather (rising_sets h), fun hnone => ?_, fun x hx => ?_⟩
  · rw [hextent] at hnone
    rw [hnone] at hbound
    exact hbound
  · rw [hextent] at hx
    rw [hx] at hbound
    exact ⟨hbound.1, hbound.2.trans htotal⟩

end

/-- However deep the tree, its extent bounds its tokens. -/
theorem bounded (t : MergeTree) (h : t.Proper) (hsize : t.size < 2 ^ 64) : t.Bounded := by
  induction t using induct with
  | absent => exact ⟨.nil, fun _ => rfl, nofun⟩
  | leaf ts =>
    obtain ⟨hcovers, hcount⟩ := Extent.covers_ofTokens h hsize
    refine ⟨h, nofun, ?_⟩
    rintro _ ⟨⟩
    exact ⟨hcovers, hcount.le⟩
  | node k inputs ih =>
    obtain ⟨hall, hk⟩ := h
    apply bounded_node ?_ hk hsize
    intro t ht
    exact ih t ht (proper_of_allProper hall t ht) ((size_le_sizes ht).trans_lt hsize)

/-- Streams that stand for what some trees hand to a merge. -/
structure Stand (n : Nat) (cs : Array Cursor) (ids : List Nat) (ps : List Part)
    (handed : List (Extent × List Token)) : Prop where
  inputs : Inputs n cs ids ps
  quiet : Quiet cs (Part.allReads ps)
  extents : ids.map (Merge.extentOf cs) = handed.map Prod.fst
  tokens : ps.map Part.tokens = handed.map Prod.snd

namespace Stand

variable {n n' : Nat} {cs cs' : Array Cursor} {ids ids' : List Nat} {ps ps' : List Part}
  {handed handed' : List (Extent × List Token)} {x : Nat} {p : Part}

theorem nil (n : Nat) (cs : Array Cursor) : Stand n cs [] [] [] := ⟨.nil n cs, nofun, rfl, rfl⟩

theorem single (hx : Opened n cs x p) (hquiet : Quiet cs p.reads) :
    Stand n cs [x] [p] [(Merge.extentOf cs x, p.tokens)] where
  inputs := ⟨.cons hx .nil, by simpa [Part.allReads] using hx.streams.nodup⟩
  quiet := by simpa [Part.allReads] using hquiet
  extents := rfl
  tokens := rfl

theorem beyond (h : Stand n cs ids ps handed) (hb : Beyond cs.size cs cs') :
    Stand n cs' ids ps handed where
  inputs := h.inputs.beyond hb
  quiet := h.quiet.frame fun i hi => hb i (h.inputs.mem_reads i hi).2
  extents := by
    rw [← h.extents]
    exact List.map_congr_left fun x hx => Merge.extentOf_congr (hb x (h.inputs.lt_size x hx))
  tokens := h.tokens

theorem append (h : Stand n cs ids ps handed) (h' : Stand n' cs ids' ps' handed') (hle : n ≤ n')
    (hbefore : ∀ i ∈ Part.allReads ps, i < n') :
    Stand n cs (ids ++ ids') (ps ++ ps') (handed ++ handed') where
  inputs := by
    refine ⟨List.rel_append h.inputs.each (h'.inputs.mono hle).each, ?_⟩
    rw [Part.allReads, List.flatMap_append, List.nodup_append]
    refine ⟨h.inputs.distinct, h'.inputs.distinct, fun i hi j hj hij => ?_⟩
    have hlow := hbefore i hi
    have hhigh := (h'.inputs.mem_reads j hj).1
    omega
  quiet := by
    rw [Part.allReads, List.flatMap_append]
    exact h.quiet.append h'.quiet
  extents := by rw [List.map_append, h.extents, h'.extents, List.map_append]
  tokens := by rw [List.map_append, h.tokens, h'.tokens, List.map_append]

theorem counts (h : Stand n cs ids ps handed) (hcovers : ∀ q ∈ handed, q.1.Covers q.2) :
    Counts cs ids ps := by
  obtain ⟨-, -, hextents, htokens⟩ := h
  induction handed generalizing ids ps with
  | nil =>
    rw [List.map_nil, List.map_eq_nil_iff] at hextents htokens
    rw [hextents, htokens]
    exact .nil
  | cons q rest ih =>
    obtain ⟨x, ids, rfl, hx, hids⟩ := List.map_eq_cons_iff.1 hextents
    obtain ⟨p, ps, rfl, hp, hps⟩ := List.map_eq_cons_iff.1 htokens
    obtain ⟨hq, hrest⟩ := List.forall_mem_cons.1 hcovers
    apply List.Forall₂.cons ?_ (ih hrest hids hps)
    intro hne
    have hpos := List.length_pos_iff.2 hne
    have hlength := hq.length_le
    rw [← hp] at hlength
    have hcount : q.1.count ≠ 0 := by
      intro hzero
      rw [hzero, UInt64.toNat_zero] at hlength
      omega
    unfold Merge.admits
    rw [hx]
    exact decide_eq_true hcount

end Stand

/-- In whatever engine a tree is opened, its cursor is a stream of its tokens. -/
def Opens (t : MergeTree) : Prop := ∀ e : Engine, Ensures t.opened e fun r e' =>
  Beyond e.cursors.size e.cursors e'.cursors ∧ ∃ o ps, r = .ok o ∧
    Stand e.cursors.size e'.cursors o.toList ps t.parts

theorem opens_leaf {ts : List Token} (h : Rising ts) : (leaf ts).Opens := by
  intro e
  unfold opened
  rw [ensures_map, ensures_openAs]
  have hopened := Opened.ofTokens (Nat.le_refl e.cursors.size) h none none
  have hstand := Stand.single hopened (Quiet.push e.cursors rfl)
  rw [Merge.extentOf_push] at hstand
  exact ⟨Beyond.push _ _, some e.cursors.size, _, rfl, hstand⟩

theorem opens_all (h : ∀ t ∈ inputs, t.Opens) (e : Engine) :
    Ensures (openedAll inputs) e fun r e' =>
      Beyond e.cursors.size e.cursors e'.cursors ∧ ∃ os ps, r = .ok os ∧
        Stand e.cursors.size e'.cursors (os.filterMap id) ps (inputs.flatMap parts) := by
  induction inputs generalizing e with
  | nil => exact ⟨.refl _ _, [], [], rfl, .nil _ _⟩
  | cons t rest ih =>
    obtain ⟨ht, hrest⟩ := List.forall_mem_cons.1 h
    unfold openedAll
    apply (ht e).bind ?_ fun _ _ h₁ => nomatch h₁.2.choose_spec.choose_spec.1
    rintro o e₁ ⟨hb₁, _, ps, ⟨⟩, h₁⟩
    have hle := hb₁.le_size (Nat.le_refl _)
    apply (ih hrest e₁).bind ?_ fun _ _ h₂ => nomatch h₂.2.choose_spec.choose_spec.1
    rintro os e₂ ⟨hb₂, _, qs, ⟨⟩, h₂⟩
    refine ⟨hb₁.trans (hb₂.mono hle), o :: os, ps ++ qs, rfl, ?_⟩
    have hall := (h₁.beyond hb₂).append h₂ hle fun i hi => (h₁.inputs.mem_reads i hi).2
    have hids : (o :: os).filterMap id = o.toList ++ os.filterMap id := by
      cases o <;> rfl
    rw [hids, List.flatMap_cons]
    exact hall

/-- What a merge of streams gives is what the node stands for. -/
theorem joins_iff {n : Nat} {cs : Array Cursor} {ids : List Nat} {ps taken : List Part}
    (hstand : Stand n cs ids ps (inputs.flatMap parts)) (h : ∀ t ∈ inputs, t.Bounded)
    (hk : k = .and → ∀ t ∈ inputs, ∃ x, t.extent = some x ∧ x.count ≠ 0)
    (hsub : ∀ p ∈ taken, p ∈ ps) (hcounted : ∀ p ∈ ps, p.tokens ≠ [] → p ∈ taken)
    (hwhole : (∀ x ∈ ids, Merge.admits cs x) → taken = ps) (hne : taken ≠ []) (u : Token) :
    k.Joins taken u ↔ u ∈ (node k inputs).members := by
  rw [members]
  cases k with
  | or =>
    rw [Connective.or_joins, Connective.mem_gather_or]
    constructor
    · rintro ⟨p, hp, hu⟩
      have htokens : p.tokens ∈ (inputs.flatMap parts).map Prod.snd := by
        rw [← hstand.tokens]
        exact List.mem_map_of_mem (hsub p hp)
      obtain ⟨q, hq, hqp⟩ := List.mem_map.1 htokens
      rw [← hqp] at hu
      exact ⟨q.2, (covers_parts h q hq).2, hu⟩
    · rintro ⟨s, hs, hu⟩
      obtain ⟨q, hq, rfl, -⟩ := mem_parts_of_ne_nil h hs (List.ne_nil_of_mem hu)
      have htokens : q.2 ∈ ps.map Part.tokens := by
        rw [hstand.tokens]
        exact List.mem_map_of_mem hq
      obtain ⟨p, hp, hpq⟩ := List.mem_map.1 htokens
      rw [← hpq] at hu
      exact ⟨p, hcounted p hp (List.ne_nil_of_mem hu), hu⟩
  | and =>
    obtain ⟨hsets, hcounts⟩ := parts_of_counted (hk rfl)
    have hadmits : ∀ x ∈ ids, Merge.admits cs x := by
      intro x hx
      have hextent : Merge.extentOf cs x ∈ (inputs.flatMap parts).map Prod.fst := by
        rw [← hstand.extents]
        exact List.mem_map_of_mem hx
      obtain ⟨q, hq, hqx⟩ := List.mem_map.1 hextent
      unfold Merge.admits
      rw [← hqx]
      exact decide_eq_true (hcounts q hq)
    obtain rfl := hwhole hadmits
    have htokens : taken.map Part.tokens = sets inputs := hstand.tokens.trans hsets
    rw [← htokens, Connective.mem_gather_and (by simpa using hne), List.forall_mem_map]
    exact and_iff_right hne

theorem bound_admitted {n : Nat} {cs : Array Cursor} {ids : List Nat} {ps : List Part}
    (hstand : Stand n cs ids ps (inputs.flatMap parts)) :
    k.bound ((ids.filter (Merge.admits cs)).map (Merge.extentOf cs)) = (node k inputs).extent := by
  have hadmitted : ids.filter (Merge.admits cs) =
      ids.filter ((·.count ≠ 0) ∘ Merge.extentOf cs) := rfl
  rw [hadmitted, ← List.filter_map, hstand.extents, ← extents_eq, extent]

theorem opens_node (h : ∀ t ∈ inputs, t.Bounded) (hopens : ∀ t ∈ inputs, t.Opens)
    (hk : k = .and → ∀ t ∈ inputs, ∃ x, t.extent = some x ∧ x.count ≠ 0)
    (hnode : (node k inputs).Bounded) : (node k inputs).Opens := by
  intro e
  unfold opened
  apply (opens_all hopens e).bind ?_ fun _ _ h₁ => nomatch h₁.2.choose_spec.choose_spec.1
  rintro os e₁ ⟨hb₁, _, ps, ⟨⟩, hstand⟩
  have hn := hb₁.le_size (Nat.le_refl _)
  obtain ⟨taken, hsub, hfed, hcounted, hwhole⟩ :=
    (Fed.start e.cursors.size e₁.cursors k).addAll hstand.inputs nofun
  have hcounted := hcounted (hstand.counts fun q hq => (covers_parts h q hq).1)
  have hquiet : Quiet e₁.cursors (Part.allReads taken) := hstand.quiet.of_subset hsub.subset
  have hsummed : Merge.Summed e₁.cursors
      ((os.filterMap id).foldl (Merge.takeIn e₁.cursors) { connective := k }) :=
    (Merge.Summed.start e₁.cursors k).addAll
  have hconnective := Merge.foldl_takeIn_connective e₁.cursors { connective := k } (os.filterMap id)
  have hinputs := Merge.foldl_takeIn_inputs e₁.cursors { connective := k } (os.filterMap id)
  rw [List.nil_append] at hfed hinputs
  rw [ensures_bind, Merge.ensures_addAll]
  generalize (os.filterMap id).foldl (Merge.takeIn e₁.cursors) { connective := k } = m
    at hfed hsummed hconnective hinputs
  -- The extent that the merge adds up on its way is the one that the node is given.
  have hextent : m.connective.bound (m.inputs.map (Merge.extentOf e₁.cursors)) =
      (node k inputs).extent := by
    rw [hconnective, hinputs, bound_admitted hstand]
  have hbuilt := hsummed.build
  rw [hextent] at hbuilt
  apply ((hfed.build hn).and hbuilt).mono
  rintro (f | _ | x) e₂ ⟨h₂, hmap⟩
  · exact absurd hquiet h₂
  · obtain ⟨-, rfl⟩ := h₂
    have hnone : (node k inputs).extent = none := (hmap none rfl).symm
    refine ⟨hb₁, none, [], rfl, ?_⟩
    unfold parts
    rw [hnone]
    exact .nil _ _
  · obtain ⟨hb₂, p, hstands⟩ := h₂
    have hsome : (node k inputs).extent = some (Merge.extentOf e₂.cursors x) :=
      (hmap (some x) rfl).symm
    have hne : taken ≠ [] := by
      rintro rfl
      have hnil := hfed.inputs.each.length_eq
      rw [List.length_nil, List.length_eq_zero_iff] at hnil
      rw [hnil] at hextent
      exact nomatch hextent.trans hsome
    have htokens : p.tokens = (node k inputs).members := by
      apply Rising.ext hstands.opened.streams.rising hnode.rising
      intro u
      rw [hstands.tokens, hconnective]
      exact joins_iff hstand h hk (fun p hp => hsub.subset hp) hcounted hwhole hne u
    have hsingle := Stand.single hstands.opened (hstands.quiet hquiet)
    rw [htokens] at hsingle
    refine ⟨hb₁.trans hb₂, some x, [p], rfl, ?_⟩
    rw [parts_of_extent hsome]
    exact hsingle

theorem opens (t : MergeTree) (h : t.Proper) (hsize : t.size < 2 ^ 64) : t.Opens := by
  induction t using induct with
  | absent =>
    intro e
    exact ⟨.refl _ _, none, [], rfl, .nil _ _⟩
  | leaf ts => exact opens_leaf h
  | node k inputs ih =>
    have hnode := bounded (node k inputs) h hsize
    obtain ⟨hall, hk⟩ := h
    have hinput : ∀ t ∈ inputs, t.Proper ∧ t.size < 2 ^ 64 := fun t ht =>
      ⟨proper_of_allProper hall t ht, (size_le_sizes ht).trans_lt hsize⟩
    apply opens_node ?_ ?_ hk hnode
    · exact fun t ht => bounded t (hinput t ht).1 (hinput t ht).2
    · exact fun t ht => ih t ht (hinput t ht).1 (hinput t ht).2

end MergeTree

/-- A cursor that cannot be told from a sorted list: whatever is asked of it, in whatever order, is
answered as by the list, and no search goes on without end. All tokens lie within its extent, which
counts no fewer than there are. -/
structure Refines (cs : Array Cursor) (x : CursorId) (ts : List Token) : Prop where
  answers : ∀ calls, Call.answers (Call.on x) calls cs = Call.answers Call.onList calls ts
  ends : ∀ calls, .error .endless ∉ Call.answers (Call.on x) calls cs
  within : ∀ t ∈ ts, (Merge.extentOf cs x).low ≤ t ∧ t ≤ (Merge.extentOf cs x).high
  length_le : ts.length ≤ (Merge.extentOf cs x).count.toNat

namespace MergeTree

/-- The cursor of a tree has the extent of the tree and refines the sorted list of its tokens. A
tree without a cursor has none. -/
theorem opened_refines_members (t : MergeTree) (h : t.Proper) (hsize : t.size < 2 ^ 64)
    (e : Engine) : Ensures t.opened e fun r e' => ∃ o, r = .ok o ∧
      o.map (Merge.extentOf e'.cursors) = t.extent ∧ (o = none → t.members = []) ∧
        ∀ x, o = some x → Refines e'.cursors x t.members := by
  have hbounded := t.bounded h hsize
  apply (t.opens h hsize e).mono
  rintro _ e' ⟨-, o, ps, rfl, hstand⟩
  have hextent : o.map (Merge.extentOf e'.cursors) = t.extent := by
    have hlist : (o.map (Merge.extentOf e'.cursors)).toList = t.extent.toList := by
      rw [← map_fst_parts, ← hstand.extents, Option.toList_map]
    have hheads := congrArg List.head? hlist
    rwa [Option.head?_toList, Option.head?_toList] at hheads
  refine ⟨o, rfl, hextent, ?_, ?_⟩
  · rintro rfl
    exact hbounded.absent hextent.symm
  · rintro x rfl
    have hsome : t.extent = some (Merge.extentOf e'.cursors x) := hextent.symm
    obtain ⟨hcovers, -⟩ := hbounded.covers _ hsome
    have htokens := hstand.tokens
    rw [parts_of_extent hsome] at htokens
    obtain ⟨p, rfl, hp⟩ := List.map_eq_singleton_iff.1 htokens
    obtain ⟨hx, -⟩ := List.forall₂_cons.1 hstand.inputs.each
    have hanswers := hx.streams.answers_eq
    rw [show p.tokens = t.members from hp] at hanswers
    refine ⟨hanswers, fun calls => ?_, hcovers.within, hcovers.length_le⟩
    rw [hanswers calls]
    exact Call.endless_not_mem_answers calls t.members

/-- An intersection of a list with a union, which takes an absent and an empty input as well. -/
def nested : MergeTree :=
  node .and [node .or [leaf [1, 3], absent, leaf [], leaf [2, 3, 7]], leaf [2, 3, 4]]

theorem nested_refines : nested.Proper ∧ nested.size < 2 ^ 64 ∧ nested.members = [2, 3] ∧
    Ensures nested.opened {} fun r e' => ∃ o, r = .ok o ∧
      o.map (Merge.extentOf e'.cursors) = nested.extent ∧ (o = none → nested.members = []) ∧
        ∀ x, o = some x → Refines e'.cursors x nested.members := by
  have hleaf : ∀ {ts}, Rising ts → (leaf ts).Proper := id
  have hproper : nested.Proper := by
    refine ⟨⟨⟨⟨hleaf (by decide), trivial, hleaf (by decide), hleaf (by decide), trivial⟩, nofun⟩,
      hleaf (by decide), trivial⟩, fun _ => ?_⟩
    simp only [List.forall_mem_cons]
    exact ⟨⟨⟨1, 7, 5⟩, by decide, by decide⟩, ⟨⟨2, 4, 3⟩, by decide, by decide⟩, nofun⟩
  have hsize : nested.size < 2 ^ 64 := by simp [nested, size, sizes]
  exact ⟨hproper, hsize, by decide, opened_refines_members nested hproper hsize {}⟩

end MergeTree
end SecondaryIndex
