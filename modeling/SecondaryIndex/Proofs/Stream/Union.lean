import SecondaryIndex.Proofs.Loan.Still
import SecondaryIndex.Proofs.Stream

namespace SecondaryIndex

/-- Streams of some cursors that share nothing. -/
structure Lines (cs : Array Cursor) (depth : Nat) (children : List Nat) (ps : List Part) :
    Prop where
  each : List.Forall₂ (Streams cs depth) children ps
  distinct : (Part.allReads ps).Nodup

namespace Lines

variable {cs cs' cs'' : Array Cursor} {depth x : Nat} {rest children reads : List Nat}
  {p p' : Part} {ps qs qs' : List Part}

theorem uncons (h : Lines cs depth (x :: rest) ps) : ∃ p qs, ps = p :: qs ∧
    Streams cs depth x p ∧ Lines cs depth rest qs ∧ ∀ i ∈ p.reads, i ∉ Part.allReads qs := by
  obtain ⟨heach, hdistinct⟩ := h
  cases heach with
  | @cons _ p _ qs hx hrest =>
    rw [Part.allReads, List.flatMap_cons, List.nodup_append] at hdistinct
    refine ⟨p, qs, rfl, hx, ⟨hrest, hdistinct.2.1⟩, fun i hi hi' => ?_⟩
    exact hdistinct.2.2 i hi i hi' rfl

theorem cons (hx : Streams cs depth x p) (h : Lines cs depth rest qs)
    (hdisjoint : ∀ i ∈ p.reads, i ∉ Part.allReads qs) :
    Lines cs depth (x :: rest) (p :: qs) := by
  refine ⟨.cons hx h.each, ?_⟩
  have hp : p.reads.Nodup := by
    cases depth with
    | zero => exact hx.elim
    | succ depth =>
      obtain ⟨c, q, -, hgives⟩ := hx
      exact hgives.distinct
  rw [Part.allReads, List.flatMap_cons, List.nodup_append]
  refine ⟨hp, h.distinct, ?_⟩
  rintro i hi _ hi' rfl
  exact hdisjoint i hi hi'

theorem rising (h : Lines cs depth children ps) : ∀ p ∈ ps, Rising p.tokens := fun p hp => by
  obtain ⟨x, -, hx⟩ := exists_left h.each p hp
  exact hx.rising

theorem beside (h : Lines cs depth children ps) (hb : Beside reads cs cs')
    (hdisjoint : ∀ i ∈ Part.allReads ps, i ∉ reads) : Lines cs' depth children ps :=
  ⟨Streams.all_beside h.each hb hdisjoint, h.distinct⟩

theorem step (hx : Streams cs' depth x p') (hb : Beside p.reads cs cs')
    (hrest : Lines cs'' depth rest qs') (hb' : Beside (Part.allReads qs) cs' cs'')
    (hreads : p'.reads = p.reads) (hreads' : Part.allReads qs' = Part.allReads qs)
    (hdisjoint : ∀ i ∈ p.reads, i ∉ Part.allReads qs) :
    Lines cs'' depth (x :: rest) (p' :: qs') ∧ Beside (Part.allReads (p :: qs)) cs cs'' := by
  refine ⟨cons (hx.beside hb' (hreads ▸ hdisjoint)) hrest ?_, ?_⟩
  · rw [hreads, hreads']
    exact hdisjoint
  · refine (hb.mono ?_).trans (hb'.mono ?_)
    · exact fun i hi => List.mem_append_left _ hi
    · exact fun i hi => List.mem_append_right _ hi

end Lines

theorem Part.allReads_map (f : Part → Part) (h : ∀ p, (f p).reads = p.reads) (ps : List Part) :
    allReads (ps.map f) = allReads ps := by
  rw [allReads, List.flatMap_map, allReads]
  exact congrArg (List.flatMap · ps) (funext h)

theorem Part.without_head {p : Part} {t : Token} (h : Rising p.tokens)
    (hhead : p.tokens.head? = some t) : p.without t = p.rest := by
  obtain ⟨ts, htokens⟩ := List.head?_eq_some_iff.1 hhead
  rw [htokens] at h
  rw [Part.without, Part.rest, htokens, h.filter_ne_head, List.tail_cons]

theorem Part.without_of_lt {p : Part} {t : Token} (h : Rising p.tokens)
    (hle : ∀ u ∈ p.tokens, t ≤ u) (hhead : p.tokens.head? ≠ some t) : p.without t = p := by
  have habsent : ∀ u ∈ p.tokens, u ≠ t := by
    rintro u hu rfl
    rw [h.eq_cons hu hle] at hhead
    exact hhead rfl
  rw [Part.without, List.filter_eq_self.2 fun u hu => decide_eq_true (habsent u hu)]

namespace Pull

/-- A way to advance cursors that moves the streams of some depth as lists are moved. -/
structure Advance.Reads (a : Advance) (depth : Nat) : Prop where
  look : ∀ {cs : Array Cursor} {x : Nat} {p : Part}, Streams cs depth x p →
    Ensures (look a x) cs fun r cs' =>
      r = .ok p.tokens.head? ∧ Streams cs' depth x p ∧ Beside p.reads cs cs'
  next : ∀ {cs : Array Cursor} {x : Nat} {p : Part} {t : Token} {ts : List Token},
    Streams cs depth x p → p.tokens = t :: ts → Ensures (next a x) cs fun r cs' =>
      r = .ok t ∧ Streams cs' depth x { p with tokens := ts } ∧ Beside p.reads cs cs'
  skipTo : ∀ {cs : Array Cursor} {x : Nat} {p : Part} (t : Token), Streams cs depth x p →
    Ensures (skipTo a x t) cs fun r cs' =>
      r = .ok () ∧ Streams cs' depth x (p.skip t) ∧ Beside p.reads cs cs'

section

variable {a : Advance} {depth : Nat} {cs : Array Cursor} {children : List Nat} {ps : List Part}

theorem Advance.Reads.skipAll (ha : a.Reads depth) (t : Token) (h : Lines cs depth children ps) :
    Ensures (skipAll a t children) cs fun r cs' => r = .ok () ∧
      Lines cs' depth children (ps.map (Part.skip t)) ∧ Beside (Part.allReads ps) cs cs' := by
  induction children generalizing cs ps with
  | nil =>
    obtain ⟨heach, -⟩ := h
    cases heach
    exact ⟨rfl, ⟨.nil, .nil⟩, .refl _ _⟩
  | cons x rest ih =>
    obtain ⟨p, qs, rfl, hx, hrest, hdisjoint⟩ := h.uncons
    rw [Pull.skipAll]
    refine (ha.skipTo t hx).bind_ok ?_
    rintro cs₁ ⟨hx₁, hb₁⟩
    refine (ih (hrest.beside hb₁ fun i hi hi' => hdisjoint i hi' hi)).mono ?_
    rintro r cs₂ ⟨hr, hrest₂, hb₂⟩
    exact ⟨hr, Lines.step hx₁ hb₁ hrest₂ hb₂ rfl
      (Part.allReads_map (Part.skip t) (fun _ => rfl) qs) hdisjoint⟩

/-- The least of `best` and all tokens of some parts, if there is any. -/
def IsLeastOf (best : Option Token) (ps : List Part) (m : Option Token) : Prop :=
  (∀ t, m = some t → best = some t ∨ ∃ p ∈ ps, t ∈ p.tokens) ∧
    ∀ t, (best = some t ∨ ∃ p ∈ ps, t ∈ p.tokens) → ∃ u, m = some u ∧ u ≤ t

/-- The lesser of two tokens ahead, where there are two. -/
def lesser : Option Token → Option Token → Option Token
  | some t, some u => some (if u < t then u else t)
  | none, head => head
  | best, none => best

theorem least_cons (best : Option Token) (x : Nat) (rest : List Nat) :
    Pull.least a best (x :: rest) = (do Pull.least a (lesser best (← Pull.look a x)) rest) := by
  rw [Pull.least]
  congr 1
  funext head
  cases best <;> cases head <;> rfl

theorem isLeastOf_lesser {p : Part} (h : Rising p.tokens) (best : Option Token) :
    IsLeastOf best [p] (lesser best p.tokens.head?) := by
  simp only [IsLeastOf, List.mem_singleton, exists_eq_left]
  cases htokens : p.tokens with
  | nil =>
    have hsame : lesser best ([] : List Token).head? = best := by cases best <;> rfl
    rw [hsame]
    exact ⟨fun _ => .inl, fun t ht => ⟨t, ht.resolve_right nofun, Int.le_refl t⟩⟩
  | cons u ts =>
    rw [htokens] at h
    rw [List.head?_cons]
    cases best with
    | none =>
      refine ⟨?_, fun t ht => ⟨u, rfl, h.head_le (ht.resolve_left nofun)⟩⟩
      rintro _ ⟨⟩
      exact .inr (List.mem_cons_self ..)
    | some t =>
      have hmin : (if u < t then u else t) ≤ t ∧ (if u < t then u else t) ≤ u := by
        split <;> constructor <;> lia
      refine ⟨fun v hv => ?_, ?_⟩
      · rw [lesser] at hv
        split at hv <;> cases hv
        · exact .inr (List.mem_cons_self ..)
        · exact .inl rfl
      · rintro v (⟨⟨⟩⟩ | hv)
        · exact ⟨_, rfl, hmin.1⟩
        · exact ⟨_, rfl, Int.le_trans hmin.2 (h.head_le hv)⟩

theorem IsLeastOf.cons {best best' m : Option Token} {p : Part} (h : IsLeastOf best [p] best')
    (h' : IsLeastOf best' ps m) : IsLeastOf best (p :: ps) m := by
  simp only [IsLeastOf, List.mem_singleton, exists_eq_left] at h
  simp only [IsLeastOf, List.mem_cons, exists_eq_or_imp]
  refine ⟨fun t ht => ?_, fun t ht => ?_⟩
  · rcases h'.1 t ht with ht | ht
    · exact (h.1 t ht).imp_right .inl
    · exact .inr (.inr ht)
  · have hfirst : (best = some t ∨ t ∈ p.tokens) → ∃ u, m = some u ∧ u ≤ t := by
      intro ht
      obtain ⟨u, hu, hut⟩ := h.2 t ht
      obtain ⟨v, hv, hvu⟩ := h'.2 u (.inl hu)
      exact ⟨v, hv, Int.le_trans hvu hut⟩
    rcases ht with ht | ht | ht
    · exact hfirst (.inl ht)
    · exact hfirst (.inr ht)
    · exact h'.2 t (.inr ht)

theorem Advance.Reads.least (ha : a.Reads depth) (best : Option Token)
    (h : Lines cs depth children ps) :
    Ensures (least a best children) cs fun r cs' => (∃ m, r = .ok m ∧ IsLeastOf best ps m) ∧
      Lines cs' depth children ps ∧ Beside (Part.allReads ps) cs cs' := by
  induction children generalizing cs ps best with
  | nil =>
    obtain ⟨heach, -⟩ := h
    cases heach
    refine ⟨⟨best, rfl, fun _ => .inl, ?_⟩, ⟨.nil, .nil⟩, .refl _ _⟩
    rintro t (ht | ⟨_, ⟨⟩, -⟩)
    exact ⟨t, ht, Int.le_refl t⟩
  | cons x rest ih =>
    obtain ⟨p, qs, rfl, hx, hrest, hdisjoint⟩ := h.uncons
    rw [least_cons]
    refine (ha.look hx).bind_ok ?_
    rintro cs₁ ⟨hx₁, hb₁⟩
    refine (ih _ (hrest.beside hb₁ fun i hi hi' => hdisjoint i hi' hi)).mono ?_
    rintro r cs₂ ⟨⟨m, hr, hm⟩, hrest₂, hb₂⟩
    exact ⟨⟨m, hr, (isLeastOf_lesser hx.rising best).cons hm⟩,
      Lines.step hx₁ hb₁ hrest₂ hb₂ rfl rfl hdisjoint⟩

theorem Advance.Reads.pop (ha : a.Reads depth) {x : Nat} {p : Part} {t : Token}
    (hx : Streams cs depth x p) (hhead : p.tokens.head? = some t) :
    Ensures (discard (Pull.next a x)) cs fun r cs' => r = .ok () ∧
      Streams cs' depth x p.rest ∧ Beside p.reads cs cs' := by
  obtain ⟨ts, htokens⟩ := List.head?_eq_some_iff.1 hhead
  refine ensures_map.2 ((ha.next hx htokens).mono ?_)
  rintro _ cs₁ ⟨rfl, hx₁, hb₁⟩
  rw [Part.rest, htokens, List.tail_cons]
  exact ⟨rfl, hx₁, hb₁⟩

theorem Advance.Reads.takeFrom (ha : a.Reads depth) {t : Token} (h : Lines cs depth children ps)
    (hleast : ∀ p ∈ ps, ∀ u ∈ p.tokens, t ≤ u) :
    Ensures (takeFrom a t children) cs fun r cs' => r = .ok () ∧
      Lines cs' depth children (ps.map (Part.without t)) ∧ Beside (Part.allReads ps) cs cs' := by
  induction children generalizing cs ps with
  | nil =>
    obtain ⟨heach, -⟩ := h
    cases heach
    exact ⟨rfl, ⟨.nil, .nil⟩, .refl _ _⟩
  | cons x rest ih =>
    obtain ⟨p, qs, rfl, hx, hrest, hdisjoint⟩ := h.uncons
    rw [List.forall_mem_cons] at hleast
    have hmore : ∀ cs₂, Streams cs₂ depth x (p.without t) → Beside p.reads cs cs₂ →
        Ensures (Pull.takeFrom a t rest) cs₂ fun r cs' => r = .ok () ∧
          Lines cs' depth (x :: rest) ((p :: qs).map (Part.without t)) ∧
            Beside (Part.allReads (p :: qs)) cs cs' := by
      intro cs₂ hx₂ hb₂
      refine (ih (hrest.beside hb₂ fun i hi hi' => hdisjoint i hi' hi) hleast.2).mono ?_
      rintro r cs₃ ⟨hr, hrest₃, hb₃⟩
      exact ⟨hr, Lines.step hx₂ hb₂ hrest₃ hb₃ rfl
        (Part.allReads_map (Part.without t) (fun _ => rfl) qs) hdisjoint⟩
    rw [Pull.takeFrom]
    refine (ha.look hx).bind_ok ?_
    rintro cs₁ ⟨hx₁, hb₁⟩
    by_cases hhead : p.tokens.head? = some t
    · simp only [if_pos hhead]
      refine (ha.pop hx₁ hhead).bind_ok ?_
      rintro cs₂ ⟨hx₂, hb₂⟩
      exact hmore cs₂ (Part.without_head hx.rising hhead ▸ hx₂) (hb₁.trans hb₂)
    · simp only [if_neg hhead]
      exact hmore cs₁ ((Part.without_of_lt hx.rising hleast.1 hhead).symm ▸ hx₁) hb₁

theorem exists_mem_map {f : Part → Part} {u : Token} {P : Prop}
    (h : ∀ p ∈ ps, (u ∈ (f p).tokens ↔ u ∈ p.tokens ∧ P)) :
    (∃ p ∈ ps.map f, u ∈ p.tokens) ↔ (∃ p ∈ ps, u ∈ p.tokens) ∧ P := by
  constructor
  · rintro ⟨_, hmap, hu⟩
    obtain ⟨p, hp, rfl⟩ := List.mem_map.1 hmap
    obtain ⟨hu, hP⟩ := (h p hp).1 hu
    exact ⟨⟨p, hp, hu⟩, hP⟩
  · rintro ⟨⟨p, hp, hu⟩, hP⟩
    exact ⟨f p, List.mem_map_of_mem hp, (h p hp).2 ⟨hu, hP⟩⟩

/-- A union gives the least token of its children and takes it from all of them. -/
theorem Advance.Reads.computeUnion (ha : a.Reads depth) {ts : List Token} (hts : Rising ts)
    (h : Lines cs depth children ps) (hmem : ∀ t, t ∈ ts ↔ ∃ p ∈ ps, t ∈ p.tokens) :
    Ensures (computeUnion a children) cs fun r cs' => r = .ok ts.head? ∧ ∃ ps',
      Lines cs' depth children ps' ∧ Part.allReads ps' = Part.allReads ps ∧
        (∀ t, t ∈ ts.tail ↔ ∃ p ∈ ps', t ∈ p.tokens) ∧ Beside (Part.allReads ps) cs cs' := by
  rw [Pull.computeUnion]
  refine (ha.least none h).bind ?_ ?_
  swap
  · rintro _ _ ⟨⟨_, ⟨⟩, -⟩, -⟩
  rintro m cs₁ ⟨⟨_, ⟨⟩, hfrom, hle⟩, h₁, hb₁⟩
  cases m with
  | none =>
    have hempty : ts = [] := List.eq_nil_iff_forall_not_mem.2 fun t ht => by
      obtain ⟨u, hu, -⟩ := hle t (.inr ((hmem t).1 ht))
      cases hu
    subst hempty
    exact ⟨rfl, ps, h₁, rfl, hmem, hb₁⟩
  | some t =>
    have hleast : ∀ p ∈ ps, ∀ u ∈ p.tokens, t ≤ u := by
      intro p hp u hu
      obtain ⟨v, hv, hvu⟩ := hle u (.inr ⟨p, hp, hu⟩)
      cases hv
      exact hvu
    have hts' : ts = t :: ts.tail := by
      have ht : t ∈ ts := (hmem t).2 ((hfrom t rfl).resolve_left (Option.some_ne_none t).symm)
      refine hts.eq_cons ht fun u hu => ?_
      obtain ⟨p, hp, hu⟩ := (hmem u).1 hu
      exact hleast p hp u hu
    refine (ha.takeFrom h₁ hleast).bind_ok ?_
    rintro cs₂ ⟨h₂, hb₂⟩
    refine ⟨by rw [hts']; rfl, _, h₂, Part.allReads_map (Part.without t) (fun _ => rfl) ps,
      fun u => ?_, hb₁.trans hb₂⟩
    rw [hts.mem_tail hts', hmem, exists_mem_map fun _ _ => Part.mem_without]

end

end Pull
end SecondaryIndex
