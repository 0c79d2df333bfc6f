import SecondaryIndex.Proofs.Stream.Union

namespace SecondaryIndex

namespace Pull

section

variable {a : Advance} {depth : Nat} {cs : Array Cursor} {children : List Nat} {ps : List Part}

def Common (ps : List Part) (t : Token) : Prop := ∀ p ∈ ps, t ∈ p.tokens

theorem Advance.Reads.greatest (ha : a.Reads depth) (t : Token) (h : Lines cs depth children ps) :
    Ensures (greatest a t children) cs fun r cs' => Lines cs' depth children ps ∧
      Beside (Part.allReads ps) cs cs' ∧ ((r = .ok none ∧ ∃ p ∈ ps, p.tokens = []) ∨
        ∃ m, r = .ok (some m) ∧ t ≤ m ∧ (∀ p ∈ ps, ∀ u ∈ p.tokens.head?, u ≤ m) ∧
          ∀ u, t ≤ u → Common ps u → m ≤ u) := by
  induction children generalizing cs ps t with
  | nil =>
    obtain ⟨heach, -⟩ := h
    cases heach
    exact ⟨⟨.nil, .nil⟩, .refl _ _, .inr ⟨t, rfl, Int.le_refl t, nofun, fun u hu _ => hu⟩⟩
  | cons x rest ih =>
    obtain ⟨p, qs, rfl, hx, hrest, hdisjoint⟩ := h.uncons
    rw [Pull.greatest]
    refine (ha.look hx).bind_ok ?_
    rintro cs₁ ⟨hx₁, hb₁⟩
    have hrest₁ := hrest.beside hb₁ fun i hi hi' => hdisjoint i hi' hi
    have hrising := hx.rising
    cases htokens : p.tokens with
    | nil =>
      refine ⟨.cons hx₁ hrest₁ hdisjoint, hb₁.mono fun i hi => List.mem_append_left _ hi, ?_⟩
      exact .inl ⟨rfl, p, by simp, htokens⟩
    | cons u ts =>
      rw [htokens] at hrising
      refine (ih (if t < u then u else t) hrest₁).mono ?_
      rintro r cs₂ ⟨hrest₂, hb₂, hr⟩
      obtain ⟨hlines, hbeside⟩ := Lines.step hx₁ hb₁ hrest₂ hb₂ rfl rfl hdisjoint
      refine ⟨hlines, hbeside, ?_⟩
      rcases hr with ⟨hr, q, hq, hempty⟩ | ⟨m, hr, hle, hheads, hcommon⟩
      · exact .inl ⟨hr, q, List.mem_cons_of_mem p hq, hempty⟩
      · have hmax : t ≤ m ∧ u ≤ m := by
          split at hle <;> constructor <;> lia
        refine .inr ⟨m, hr, hmax.1, ?_, fun v hv hall => ?_⟩
        · rw [List.forall_mem_cons]
          refine ⟨fun v hv => ?_, hheads⟩
          rw [htokens, List.head?_cons, Option.mem_some] at hv
          exact hv ▸ hmax.2
        · refine hcommon v ?_ fun q hq => hall q (List.mem_cons_of_mem p hq)
          have hmem := hall p (by simp)
          rw [htokens] at hmem
          have := hrising.head_le hmem
          split <;> lia

end

end Pull

/-- A part that has lost some tokens below `t` at its front. -/
structure Part.Later (t : Token) (p p' : Part) : Prop where
  reads : p'.reads = p.reads
  suffix : p'.tokens <:+ p.tokens
  kept : ∀ u ∈ p.tokens, t ≤ u → u ∈ p'.tokens

def Part.total (ps : List Part) : Nat := (ps.map fun p => p.tokens.length).sum

theorem Lines.total_le_pending {cs : Array Cursor} {depth : Nat} {children : List Nat}
    {ps : List Part} (h : Lines cs depth children ps) : Part.total ps ≤ Pull.pending cs := by
  refine (sum_length_le fun p hp => ?_).trans (sum_pendingAt_le h.distinct)
  obtain ⟨x, -, hx⟩ := exists_left h.each p hp
  exact hx.length_le

theorem Part.total_cons (p : Part) (ps : List Part) :
    total (p :: ps) = p.tokens.length + total ps := by
  rw [total, List.map_cons, List.sum_cons, total]

namespace Part.Later

variable {t u : Token} {p p' p'' : Part} {ps ps' ps'' : List Part}

theorem refl (t : Token) (p : Part) : Later t p p := ⟨rfl, List.suffix_rfl, fun _ h _ => h⟩

theorem trans (h : Later t p p') (htu : t ≤ u) (h' : Later u p' p'') : Later u p p'' where
  reads := h'.reads.trans h.reads
  suffix := h'.suffix.trans h.suffix
  kept v hv huv := h'.kept v (h.kept v hv (Int.le_trans htu huv)) huv

theorem skip (hp : Rising p.tokens) (t : Token) : Later t p (p.skip t) where
  reads := rfl
  suffix := List.dropWhile_suffix _
  kept _ hu htu := hp.mem_dropWhile.2 ⟨hu, htu⟩

theorem all_refl (t : Token) (ps : List Part) : List.Forall₂ (Later t) ps ps :=
  List.forall₂_same.2 fun p _ => refl t p

theorem all_trans (h : List.Forall₂ (Later t) ps ps') (htu : t ≤ u)
    (h' : List.Forall₂ (Later u) ps' ps'') : List.Forall₂ (Later u) ps ps'' := by
  induction h generalizing ps'' with
  | nil => exact h'
  | cons hp _ ih =>
    cases h' with
    | cons hp' hrest => exact .cons (hp.trans htu hp') (ih hrest)

theorem allReads_eq (h : List.Forall₂ (Later t) ps ps') : allReads ps' = allReads ps := by
  induction h with
  | nil => rfl
  | cons hp _ ih =>
    rw [allReads, List.flatMap_cons, hp.reads, allReads, List.flatMap_cons]
    exact congrArg _ ih

theorem common (h : List.Forall₂ (Later t) ps ps') :
    (∀ u, Pull.Common ps' u → Pull.Common ps u) ∧
      ∀ u, t ≤ u → Pull.Common ps u → Pull.Common ps' u := by
  induction h with
  | nil => exact ⟨fun _ h => h, fun _ _ h => h⟩
  | cons hp _ ih =>
    simp only [Pull.Common, List.forall_mem_cons]
    exact ⟨fun u hu => ⟨hp.suffix.subset hu.1, ih.1 u hu.2⟩,
      fun u htu hu => ⟨hp.kept u hu.1 htu, ih.2 u htu hu.2⟩⟩

theorem ne_nil (h : List.Forall₂ (Later t) ps ps') (hne : ps ≠ []) : ps' ≠ [] := by
  rintro rfl
  cases h
  exact hne rfl

end Part.Later

namespace Pull

section

variable {a : Advance} {depth : Nat} {cs : Array Cursor} {children : List Nat} {ps : List Part}

def Reached (t : Token) (ps : List Part) : Prop := ∀ p ∈ ps, ∀ u ∈ p.tokens.head?, u ≤ t

/-- What a round comes to: some part has ended, or all agree, or one stands above. Then the round
has passed a token, and all that is common stands at least as high. -/
inductive Round (t : Token) (ps ps' : List Part) : Option Token → Prop
  | ended {p : Part} (hp : p ∈ ps) (h : ∀ u ∈ p.tokens, u < t) : Round t ps ps' none
  | agreed (h : ∀ p ∈ ps', p.tokens.head? = some t) : Round t ps ps' (some t)
  | raised {u : Token} (htu : t < u) (hcommon : ∀ v, t ≤ v → Common ps v → u ≤ v)
    (hpassed : Reached t ps → Reached u ps' ∧ Part.total ps' < Part.total ps) :
    Round t ps ps' (some u)

namespace Round

variable {t u : Token} {p p' : Part} {qs qs' : List Part} {m : Option Token}

theorem of_nil (h : Rising p.tokens) (hskip : (p.skip t).tokens = []) :
    Round t (p :: qs) (p.skip t :: qs) none := by
  refine .ended (List.mem_cons_self ..) fun u hu => ?_
  by_contra hut
  have hmem := (Part.mem_skip h).2 ⟨hu, Int.not_lt.1 hut⟩
  rw [hskip] at hmem
  cases hmem

theorem of_above (h : Rising p.tokens) (hhead : (p.skip t).tokens.head? = some u) (htu : t < u) :
    Round t (p :: qs) (p.skip t :: qs) (some u) := by
  have hlater := Part.Later.skip h t
  obtain ⟨ts, htokens⟩ := List.head?_eq_some_iff.1 hhead
  refine .raised htu (fun v htv hv => ?_) fun hreached => ?_
  · have hmem := (Part.mem_skip h).2 ⟨hv p (List.mem_cons_self ..), htv⟩
    have hrising : Rising (p.skip t).tokens := h.sublist hlater.suffix.sublist
    rw [htokens] at hmem hrising
    exact hrising.head_le hmem
  · obtain ⟨hreached, hrest⟩ := List.forall_mem_cons.1 hreached
    refine ⟨List.forall_mem_cons.2 ⟨fun v hv => ?_, fun q hq v hv => ?_⟩, ?_⟩
    · rw [hhead, Option.mem_some] at hv
      exact Int.le_of_eq hv.symm
    · exact Int.le_trans (hrest q hq v hv) (Int.le_of_lt htu)
    · -- The head was not above `t`, so skipping has passed it.
      have hlength : (p.skip t).tokens.length < p.tokens.length := by
        refine Nat.lt_of_le_of_ne hlater.suffix.length_le fun heq => ?_
        have hle := hreached u (hlater.suffix.eq_of_length heq ▸ hhead)
        lia
      rw [Part.total_cons, Part.total_cons]
      exact Nat.add_lt_add_right hlength _

theorem cons (hlater : Part.Later t p p') (hhead : p'.tokens.head? = some t)
    (h : Round t qs qs' m) : Round t (p :: qs) (p' :: qs') m := by
  cases h with
  | ended hq hall => exact .ended (List.mem_cons_of_mem p hq) hall
  | agreed hall => exact .agreed (List.forall_mem_cons.2 ⟨hhead, hall⟩)
  | raised htu hcommon hpassed =>
    refine .raised htu (fun v hv hall => hcommon v hv (List.forall_mem_cons.1 hall).2) ?_
    intro hreached
    obtain ⟨hreached', htotal⟩ := hpassed (List.forall_mem_cons.1 hreached).2
    refine ⟨List.forall_mem_cons.2 ⟨fun v hv => ?_, hreached'⟩, ?_⟩
    · rw [hhead, Option.mem_some] at hv
      exact hv ▸ Int.le_of_lt htu
    · rw [Part.total_cons, Part.total_cons]
      exact Nat.add_lt_add_of_le_of_lt hlater.suffix.length_le htotal

end Round

theorem Advance.Reads.align (ha : a.Reads depth) (t : Token) (h : Lines cs depth children ps) :
    Ensures (align a t children) cs fun r cs' => ∃ ps' m, r = .ok m ∧
      Lines cs' depth children ps' ∧ List.Forall₂ (Part.Later t) ps ps' ∧
        Beside (Part.allReads ps) cs cs' ∧ Round t ps ps' m := by
  induction children generalizing cs ps with
  | nil =>
    obtain ⟨heach, -⟩ := h
    cases heach
    exact ⟨[], some t, rfl, ⟨.nil, .nil⟩, .nil, .refl _ _, .agreed nofun⟩
  | cons x rest ih =>
    obtain ⟨p, qs, rfl, hx, hrest, hdisjoint⟩ := h.uncons
    have hlater := Part.Later.skip hx.rising t
    rw [Pull.align]
    refine (ha.skipTo t hx).bind_ok ?_
    rintro cs₁ ⟨hx₁, hb₁⟩
    refine (ha.look hx₁).bind_ok ?_
    rintro cs₂ ⟨hx₂, hb₂⟩
    have hb₂' : Beside p.reads cs cs₂ := hb₁.trans hb₂
    have hrest₂ := hrest.beside hb₂' fun i hi hi' => hdisjoint i hi' hi
    -- A round that ends at `x` leaves the others where they are.
    have hends : ∀ m, Round t (p :: qs) (p.skip t :: qs) m →
        ∃ ps' m', (.ok m : Except Fault (Option Token)) = .ok m' ∧ Lines cs₂ depth (x :: rest) ps' ∧
          List.Forall₂ (Part.Later t) (p :: qs) ps' ∧ Beside (Part.allReads (p :: qs)) cs cs₂ ∧
            Round t (p :: qs) ps' m' := fun m hround =>
      ⟨_, m, rfl, .cons hx₂ hrest₂ hdisjoint, .cons hlater (Part.Later.all_refl t qs),
        hb₂'.mono fun i hi => List.mem_append_left _ hi, hround⟩
    cases hhead : (p.skip t).tokens.head? with
    | none => exact hends none (.of_nil hx.rising (List.head?_eq_none_iff.1 hhead))
    | some u =>
      simp only
      split
      next hlt => exact hends (some u) (.of_above hx.rising hhead hlt)
      next hnot =>
        have hut : u = t := by
          have := (Part.mem_skip hx.rising).1 (List.mem_of_mem_head? hhead)
          lia
        subst hut
        refine (ih hrest₂).mono ?_
        rintro r cs₃ ⟨qs', m, hr, hrest₃, hlater₃, hb₃, hround⟩
        obtain ⟨hlines, hbeside⟩ := Lines.step hx₂ hb₂' hrest₃ hb₃ rfl
          (Part.Later.allReads_eq hlater₃) hdisjoint
        exact ⟨_, m, hr, hlines, .cons hlater hlater₃, hbeside, .cons hlater hhead hround⟩

/-- As many rounds as there are tokens, and one more, find the least common token from `t` on. -/
theorem Advance.Reads.agree (ha : a.Reads depth) {fuel : Nat} (t : Token)
    (h : Lines cs depth children ps) (hreached : Reached t ps) (hfuel : Part.total ps < fuel) :
    Ensures (agree a children fuel t) cs fun r cs' => ∃ ps' v, t ≤ v ∧
      Lines cs' depth children ps' ∧ List.Forall₂ (Part.Later v) ps ps' ∧
        Beside (Part.allReads ps) cs cs' ∧ ((r = .ok none ∧ ∀ u, t ≤ u → ¬ Common ps u) ∨
          (r = .ok (some v) ∧ (∀ p ∈ ps', p.tokens.head? = some v) ∧
            ∀ u, t ≤ u → Common ps u → v ≤ u)) := by
  induction fuel generalizing cs ps t with
  | zero => omega
  | succ fuel ih =>
    rw [Pull.agree]
    refine (ha.align t h).bind ?_ ?_
    swap
    · rintro _ _ ⟨_, _, ⟨⟩, -⟩
    rintro _ cs₁ ⟨ps₁, m, ⟨⟩, h₁, hlater₁, hb₁, hround⟩
    cases hround with
    | ended hp hall =>
      refine ⟨ps₁, t, Int.le_refl t, h₁, hlater₁, hb₁, .inl ⟨rfl, fun u htu hu => ?_⟩⟩
      have := hall u (hu _ hp)
      lia
    | agreed hall =>
      simp only [if_true]
      exact ⟨ps₁, t, Int.le_refl t, h₁, hlater₁, hb₁, .inr ⟨rfl, hall, fun u htu _ => htu⟩⟩
    | @raised u htu hcommon hpassed =>
      have hne : ¬ u = t := by lia
      simp only [if_neg hne]
      obtain ⟨hreached₁, htotal⟩ := hpassed hreached
      refine (ih u h₁ hreached₁ (by omega)).mono ?_
      rintro r cs₂ ⟨ps₂, v, huv, h₂, hlater₂, hb₂, hr⟩
      have hb₂' := hb₁.trans (hb₂.mono fun i hi => by rwa [← Part.Later.allReads_eq hlater₁])
      have htv : t ≤ v := by lia
      -- What is common stands at `u` or above, and is still common after the round.
      have hstill : ∀ w, t ≤ w → Common ps w → u ≤ w ∧ Common ps₁ w := fun w htw hw =>
        ⟨hcommon w htw hw, (Part.Later.common hlater₁).2 w htw hw⟩
      refine ⟨ps₂, v, htv, h₂, Part.Later.all_trans hlater₁ (by lia) hlater₂, hb₂', ?_⟩
      rcases hr with ⟨hr, hnone⟩ | ⟨hr, hheads, hleast⟩
      · refine .inl ⟨hr, fun w htw hw => ?_⟩
        obtain ⟨huw, hw₁⟩ := hstill w htw hw
        exact hnone w huw hw₁
      · refine .inr ⟨hr, hheads, fun w htw hw => ?_⟩
        obtain ⟨huw, hw₁⟩ := hstill w htw hw
        exact hleast w huw hw₁

theorem common_map {f : Part → Part} {u : Token} {P : Prop} (hne : ps ≠ [])
    (h : ∀ p ∈ ps, (u ∈ (f p).tokens ↔ u ∈ p.tokens ∧ P)) :
    Common (ps.map f) u ↔ Common ps u ∧ P := by
  rw [Common, List.forall_mem_map]
  constructor
  · intro hall
    obtain ⟨p, hp⟩ := List.exists_mem_of_ne_nil ps hne
    exact ⟨fun q hq => ((h q hq).1 (hall q hq)).1, ((h p hp).1 (hall p hp)).2⟩
  · rintro ⟨hall, hP⟩ p hp
    exact (h p hp).2 ⟨hall p hp, hP⟩

theorem Advance.Reads.takeAll (ha : a.Reads depth) {t : Token} (h : Lines cs depth children ps)
    (hheads : ∀ p ∈ ps, p.tokens.head? = some t) :
    Ensures (takeAll a children) cs fun r cs' => r = .ok () ∧
      Lines cs' depth children (ps.map Part.rest) ∧ Beside (Part.allReads ps) cs cs' := by
  induction children generalizing cs ps with
  | nil =>
    obtain ⟨heach, -⟩ := h
    cases heach
    exact ⟨rfl, ⟨.nil, .nil⟩, .refl _ _⟩
  | cons x rest ih =>
    obtain ⟨p, qs, rfl, hx, hrest, hdisjoint⟩ := h.uncons
    rw [List.forall_mem_cons] at hheads
    rw [Pull.takeAll]
    refine (ha.pop hx hheads.1).bind_ok ?_
    rintro cs₁ ⟨hx₁, hb₁⟩
    refine (ih (hrest.beside hb₁ fun i hi hi' => hdisjoint i hi' hi) hheads.2).mono ?_
    rintro r cs₂ ⟨hr, hrest₂, hb₂⟩
    exact ⟨hr, Lines.step hx₁ hb₁ hrest₂ hb₂ rfl (Part.allReads_map Part.rest (fun _ => rfl) qs)
      hdisjoint⟩

/-- An intersection gives the least common token of its children and takes it from all of them. -/
theorem Advance.Reads.computeIntersection (ha : a.Reads depth) {low : Token} {ts : List Token}
    (hts : Rising ts) (h : Lines cs depth children ps) (hne : ps ≠ [])
    (hmem : ∀ t, t ∈ ts ↔ Common ps t) (hlow : ∀ t ∈ ts, low ≤ t) :
    Ensures (computeIntersection a low children) cs fun r cs' => r = .ok ts.head? ∧ ∃ ps',
      Lines cs' depth children ps' ∧ Part.allReads ps' = Part.allReads ps ∧ ps' ≠ [] ∧
        (∀ t, t ∈ ts.tail ↔ Common ps' t) ∧ Beside (Part.allReads ps) cs cs' := by
  have hchildren : children.isEmpty = false := by
    cases h.each with
    | nil => exact absurd rfl hne
    | cons => rfl
  rw [Pull.computeIntersection, hchildren, if_neg Bool.false_ne_true]
  refine (ha.greatest low h).bind ?_ ?_
  swap
  · rintro f cs₁ ⟨-, -, ⟨hr, -⟩ | ⟨_, hr, -⟩⟩ <;> cases hr
  rintro m cs₁ ⟨h₁, hb₁, ⟨hr, p, hp, hempty⟩ | ⟨m, hr, -, hreached, hcommon⟩⟩ <;> cases hr
  · have hts' : ts = [] := List.eq_nil_iff_forall_not_mem.2 fun t ht => by
      have := (hmem t).1 ht p hp
      rw [hempty] at this
      cases this
    subst hts'
    exact ⟨rfl, ps, h₁, rfl, hne, hmem, hb₁⟩
  have hstart : ∀ t, t ∈ ts → m ≤ t := fun t ht => hcommon t (hlow t ht) ((hmem t).1 ht)
  simp only [ensures_get_bind]
  refine (ha.agree m h₁ hreached (Nat.lt_succ_of_le h₁.total_le_pending)).bind ?_ ?_
  swap
  · rintro f cs₂ ⟨_, _, -, -, -, -, ⟨hr, -⟩ | ⟨hr, -⟩⟩ <;> cases hr
  rintro _ cs₂ ⟨ps₂, v, -, h₂, hlater, hb₂, ⟨hr, hnone⟩ | ⟨hr, hheads, hleast⟩⟩ <;> cases hr
  · have hts' : ts = [] := List.eq_nil_iff_forall_not_mem.2 fun t ht =>
      hnone t (hstart t ht) ((hmem t).1 ht)
    subst hts'
    refine ⟨rfl, ps₂, h₂, Part.Later.allReads_eq hlater, Part.Later.ne_nil hlater hne,
      fun t => ⟨nofun, fun ht => ?_⟩, hb₁.trans hb₂⟩
    exact (hmem t).2 ((Part.Later.common hlater).1 t ht)
  · have hv : v ∈ ts := (hmem v).2 <| (Part.Later.common hlater).1 v fun p hp =>
      List.mem_of_mem_head? (hheads p hp)
    have hts' : ts = v :: ts.tail :=
      hts.eq_cons hv fun u hu => hleast u (hstart u hu) ((hmem u).1 hu)
    refine (ha.takeAll h₂ hheads).bind_ok ?_
    rintro cs₃ ⟨h₃, hb₃⟩
    have hne₂ := Part.Later.ne_nil hlater hne
    refine ⟨by rw [hts']; rfl, _, h₃, ?_, ?_, fun u => ?_, (hb₁.trans hb₂).trans (hb₃.mono ?_)⟩
    · rw [Part.allReads_map Part.rest (fun _ => rfl), Part.Later.allReads_eq hlater]
    · rwa [ne_eq, List.map_eq_nil_iff]
    · have hrest : ∀ p ∈ ps₂, (u ∈ p.rest.tokens ↔ u ∈ p.tokens ∧ u ≠ v) := fun p hp =>
        Part.mem_rest (h₂.rising p hp) (hheads p hp)
      rw [hts.mem_tail hts', hmem, common_map hne₂ hrest, and_congr_left_iff]
      refine fun _ => ⟨fun hu => ?_, (Part.Later.common hlater).1 u⟩
      have hvu := hleast u (hstart u ((hmem u).2 hu)) hu
      exact (Part.Later.common hlater).2 u hvu hu
    · exact fun i hi => by rwa [← Part.Later.allReads_eq hlater]

end

end Pull
end SecondaryIndex
