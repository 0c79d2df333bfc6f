import Mathlib.Data.List.TakeWhile
import SecondaryIndex.Proofs.Stream.Intersection

namespace SecondaryIndex

theorem ensures_update {cs : Array Cursor} {x : Nat} {f : Cursor → Cursor}
    {Q : Except Fault Unit → Array Cursor → Prop} :
    Ensures (Pull.update x f) cs Q ↔ Q (.ok ()) (cs.modify x f) := Iff.rfl

theorem getElem?_modify_self {cs : Array Cursor} {x : Nat} {c : Cursor} (hc : cs[x]? = some c)
    (f : Cursor → Cursor) : (cs.modify x f)[x]? = some (f c) := by
  rw [Array.getElem?_modify, if_pos rfl, hc]
  rfl

theorem Sourced.frame {cs cs' : Array Cursor} {depth : Nat} {c : Cursor} {q : Part}
    (h : Sourced (Streams cs depth) c q) (hcs : ∀ i ∈ q.reads, cs'[i]? = cs[i]?) :
    Sourced (Streams cs' depth) c q :=
  h.mono fun _ _ hr hk => hk.frame fun i hi => hcs i (hr i hi)

section

variable {below : Nat → Part → Prop} {c : Cursor} {x : Nat} {t : Token} {p q : Part}

theorem Gives.nodup (h : Gives below c x p q) : (x :: q.reads).Nodup := h.reads ▸ h.distinct

theorem Gives.awake (h : Gives below c x p q) (hahead : c.ahead = some t) :
    c.exhausted = false := by
  rw [← Bool.not_eq_true]
  intro hex
  rw [h.spent hex] at hahead
  cases hahead

theorem Part.skip_of_head (h : ∀ u ∈ p.tokens.head?, t ≤ u) : p.skip t = p := by
  rcases p with ⟨reads, tokens⟩
  rw [Part.skip, Part.mk.injEq]
  cases tokens with
  | nil => exact ⟨rfl, rfl⟩
  | cons u ts =>
    refine ⟨rfl, List.dropWhile_cons_of_neg ?_⟩
    rw [decide_eq_true_eq]
    exact Int.not_lt.2 (h u rfl)

theorem dropWhile_ahead {ahead : Option Token} (h : ahead.any (t ≤ ·) = false)
    (ts : List Token) : (ahead.toList ++ ts).dropWhile (· < t) = ts.dropWhile (· < t) := by
  cases ahead with
  | none => rfl
  | some u =>
    rw [Option.any_some, decide_eq_false_iff_not] at h
    exact List.dropWhile_cons_of_pos (decide_eq_true (Int.not_le.1 h))

end

namespace Pull

variable {a : Advance} {depth x : Nat} {cs : Array Cursor} {c : Cursor} {q : Part}

/-- What a step makes of a cursor whose source gave `q` and gives `q'` afterwards. -/
structure Moved (cs cs' : Array Cursor) (depth x : Nat) (c : Cursor) (q q' : Part) : Prop where
  cursor : ∃ source, cs'[x]? = some { c with source } ∧
    Sourced (Streams cs' depth) { c with source } q'
  reads : q'.reads = q.reads
  beside : Beside (x :: q.reads) cs cs'

theorem Moved.of_children {cs' : Array Cursor} {q' : Part} (hc : cs[x]? = some c)
    (hx : x ∉ q.reads) (hb : Beside q.reads cs cs') (hreads : q'.reads = q.reads)
    (hs : Sourced (Streams cs' depth) c q') : Moved cs cs' depth x c q q' where
  cursor := ⟨c.source, by rw [hb x hx, hc], hs⟩
  reads := hreads
  beside := hb.mono fun _ hi => List.mem_cons_of_mem x hi

/-- A token that a stream has is given and taken from it. -/
theorem Advance.Reads.poll (ha : a.Reads depth) {p : Part} (h : Streams cs depth x p) :
    Ensures (do match ← Pull.look a x with
      | none => return none
      | some _ => some <$> Pull.next a x) cs fun r cs' => r = .ok p.tokens.head? ∧
        Streams cs' depth x p.rest ∧ Beside p.reads cs cs' := by
  refine (ha.look h).bind_ok ?_
  rintro cs₁ ⟨h₁, hb₁⟩
  cases htokens : p.tokens with
  | nil =>
    have hsame : p.rest = p := by rw [Part.rest, htokens, List.tail_nil, ← htokens]
    exact ⟨rfl, hsame.symm ▸ h₁, hb₁⟩
  | cons t ts =>
    refine ensures_map.2 ((ha.next h₁ htokens).mono ?_)
    rintro _ cs₂ ⟨rfl, h₂, hb₂⟩
    have hsame : p.rest = { p with tokens := ts } := by rw [Part.rest, htokens, List.tail_cons]
    exact ⟨rfl, hsame.symm ▸ h₂, hb₁.trans hb₂⟩

theorem Advance.Reads.compute (ha : a.Reads depth) (hc : cs[x]? = some c)
    (hs : Sourced (Streams cs depth) c q) (hdistinct : (x :: q.reads).Nodup)
    (hrising : Rising q.tokens) :
    Ensures (Pull.compute a x) cs fun r cs' => r = .ok q.tokens.head? ∧
      Moved cs cs' depth x c q q.rest := by
  rw [List.nodup_cons] at hdistinct
  unfold Pull.compute
  rw [ensures_node_bind, Array.getD_eq_getD_getElem?, hc, Option.getD_some]
  rcases c with ⟨extent, source, ahead, exhausted, closes⟩
  cases source with
  | tokens ts closeFault origin =>
    obtain rfl : q = ⟨[], ts⟩ := hs
    cases ts with
    | nil => exact ⟨rfl, .of_children hc hdistinct.1 (.refl _ _) rfl rfl⟩
    | cons t ts =>
      refine ⟨rfl, ⟨_, getElem?_modify_self hc _, rfl⟩, rfl, ?_⟩
      exact Beside.modify (by simp) cs _
  | union children =>
    obtain ⟨ps, hps, hreads, hmem⟩ := hs
    have hlines : Lines cs depth children ps := ⟨hps, hreads ▸ hdistinct.2⟩
    refine (ha.computeUnion hrising hlines hmem).mono ?_
    rintro r cs₁ ⟨hr, ps₁, h₁, hreads₁, hmem₁, hb₁⟩
    refine ⟨hr, .of_children hc hdistinct.1 (hreads ▸ hb₁) rfl ?_⟩
    exact ⟨ps₁, h₁.each, hreads.trans hreads₁.symm, hmem₁⟩
  | intersection children =>
    obtain ⟨ps, hps, hreads, hne, hmem, hlow⟩ := hs
    have hlines : Lines cs depth children ps := ⟨hps, hreads ▸ hdistinct.2⟩
    refine (ha.computeIntersection hrising hlines hne hmem hlow).mono ?_
    rintro r cs₁ ⟨hr, ps₁, h₁, hreads₁, hne₁, hmem₁, hb₁⟩
    refine ⟨hr, .of_children hc hdistinct.1 (hreads ▸ hb₁) rfl ?_⟩
    exact ⟨ps₁, h₁.each, hreads.trans hreads₁.symm, hne₁, hmem₁,
      fun t ht => hlow t (List.mem_of_mem_tail ht)⟩
  | «matches» merged segments =>
    simp only [Sourced] at hs
    by_cases hopen : closes = 0
    · rw [if_pos hopen] at hs
      have hnot : ¬ closes > 0 := by omega
      simp only [if_neg hnot]
      refine (ha.poll hs).mono ?_
      rintro r cs₁ ⟨hr, h₁, hb₁⟩
      refine ⟨hr, .of_children hc hdistinct.1 hb₁ rfl ?_⟩
      simp only [Sourced, if_pos hopen]
      exact h₁
    · rw [if_neg hopen] at hs
      subst hs
      have hpos : closes > 0 := by omega
      simp only [if_pos hpos]
      refine ⟨rfl, .of_children hc hdistinct.1 (.refl _ _) rfl ?_⟩
      simp only [Sourced, if_neg hopen]
      rfl

theorem Advance.Reads.seek (ha : a.Reads depth) (t : Token) (hc : cs[x]? = some c)
    (hs : Sourced (Streams cs depth) c q) (hdistinct : (x :: q.reads).Nodup)
    (hrising : Rising q.tokens) :
    Ensures (Pull.seek a x t) cs fun r cs' => r = .ok () ∧ Moved cs cs' depth x c q (q.skip t) := by
  rw [List.nodup_cons] at hdistinct
  unfold Pull.seek
  rw [ensures_node_bind, Array.getD_eq_getD_getElem?, hc, Option.getD_some]
  rcases c with ⟨extent, source, ahead, exhausted, closes⟩
  cases source with
  | tokens ts closeFault origin =>
    obtain rfl : q = ⟨[], ts⟩ := hs
    refine ⟨rfl, ⟨_, getElem?_modify_self hc _, rfl⟩, rfl, ?_⟩
    exact Beside.modify (by simp) cs _
  | union children =>
    obtain ⟨ps, hps, hreads, hmem⟩ := hs
    have hlines : Lines cs depth children ps := ⟨hps, hreads ▸ hdistinct.2⟩
    refine (ha.skipAll t hlines).mono ?_
    rintro r cs₁ ⟨hr, h₁, hb₁⟩
    refine ⟨hr, .of_children hc hdistinct.1 (hreads ▸ hb₁) rfl ?_⟩
    refine ⟨_, h₁.each, hreads.trans (Part.allReads_map (Part.skip t) (fun _ => rfl) ps).symm,
      fun u => ?_⟩
    rw [Part.mem_skip hrising, hmem, exists_mem_map fun p hp => Part.mem_skip (hlines.rising p hp)]
  | intersection children =>
    obtain ⟨ps, hps, hreads, hne, hmem, hlow⟩ := hs
    have hlines : Lines cs depth children ps := ⟨hps, hreads ▸ hdistinct.2⟩
    refine (ha.skipAll t hlines).mono ?_
    rintro r cs₁ ⟨hr, h₁, hb₁⟩
    refine ⟨hr, .of_children hc hdistinct.1 (hreads ▸ hb₁) rfl ?_⟩
    refine ⟨_, h₁.each, hreads.trans (Part.allReads_map (Part.skip t) (fun _ => rfl) ps).symm,
      by simpa using hne, fun u => ?_, fun u hu => hlow u ((Part.mem_skip hrising).1 hu).1⟩
    rw [Part.mem_skip hrising, hmem]
    exact (common_map hne fun p hp => Part.mem_skip (hlines.rising p hp)).symm
  | «matches» merged segments =>
    simp only [Sourced] at hs
    by_cases hopen : closes = 0
    · rw [if_pos hopen] at hs
      simp only [if_pos hopen]
      refine (ha.skipTo t hs).mono ?_
      rintro r cs₁ ⟨hr, h₁, hb₁⟩
      refine ⟨hr, .of_children hc hdistinct.1 hb₁ rfl ?_⟩
      simp only [Sourced, if_pos hopen]
      exact h₁
    · rw [if_neg hopen] at hs
      subst hs
      simp only [if_neg hopen]
      refine ⟨rfl, .of_children hc hdistinct.1 (.refl _ _) rfl ?_⟩
      simp only [Sourced, if_neg hopen]
      rfl

section

variable {cs' : Array Cursor} {q' p : Part}

theorem Moved.start (hc : cs[x]? = some c) (hx : x ∉ q.reads)
    (hs : Sourced (Streams cs depth) c q) : Moved cs cs depth x c q q :=
  .of_children hc hx (.refl _ _) rfl hs

theorem Moved.mark (h : Moved cs cs' depth x c q q') (hx : x ∉ q.reads) {f : Cursor → Cursor}
    (hsource : ∀ source, f { c with source } = { f c with source })
    (hextent : (f c).extent = c.extent) (hcloses : (f c).closes = c.closes) :
    Moved cs (cs'.modify x f) depth x (f c) q q' := by
  obtain ⟨⟨source, hcursor, hs⟩, hreads, hb⟩ := h
  refine ⟨⟨source, ?_, ?_⟩, hreads, ?_⟩
  · rw [getElem?_modify_self hcursor, hsource]
  · have hframe := hs.frame fun i hi => Beside.modify (List.mem_singleton_self x) cs' f i fun hix =>
      hx (hreads ▸ List.mem_singleton.1 hix ▸ hi)
    simpa only [Sourced, hextent, hcloses] using hframe
  · exact hb.trans (Beside.modify (List.mem_cons_self ..) _ _)

theorem Moved.streams (h : Moved cs cs' depth x c q q') (hdistinct : (x :: q.reads).Nodup)
    (hrising : Rising (c.ahead.toList ++ q'.tokens))
    (hbounded : ∀ t ∈ c.ahead.toList ++ q'.tokens, t ≤ c.extent.high)
    (hspent : c.exhausted = true → c.ahead = none) :
    Streams cs' (depth + 1) x
      ⟨x :: q.reads, if c.exhausted then [] else c.ahead.toList ++ q'.tokens⟩ := by
  obtain ⟨⟨source, hcursor, hs⟩, hreads, -⟩ := h
  exact ⟨_, q', hcursor, by rw [hreads], hdistinct, hs, hrising, hbounded, hspent, rfl⟩

theorem Advance.Reads.look_above (ha : a.Reads depth) (h : Streams cs (depth + 1) x p) :
    Ensures (Pull.look ⟨Pull.compute a, Pull.seek a⟩ x) cs fun r cs' => r = .ok p.tokens.head? ∧
      (∃ c, cs'[x]? = some c ∧ c.ahead = p.tokens.head?) ∧ Streams cs' (depth + 1) x p ∧
        Beside p.reads cs cs' := by
  have hstreams := h
  obtain ⟨c, q, hc, hgives⟩ := h
  have hdistinct := hgives.nodup
  rw [Pull.look, ensures_node_bind, Array.getD_eq_getD_getElem?, hc, Option.getD_some]
  have htokens := hgives.tokens
  cases hahead : c.ahead with
  | some t =>
    rw [hgives.awake hahead, hahead] at htokens
    refine ⟨by rw [htokens]; exact rfl, ⟨c, hc, ?_⟩, hstreams, .refl _ _⟩
    rw [htokens, hahead]
    exact rfl
  | none =>
    cases hex : c.exhausted with
    | true =>
      rw [hex] at htokens
      refine ⟨by rw [htokens]; exact rfl, ⟨c, hc, ?_⟩, hstreams, .refl _ _⟩
      rw [htokens, hahead]
      exact rfl
    | false =>
      have hrising := hgives.rising
      have hbounded := hgives.bounded
      rw [hahead] at hrising hbounded
      rw [hex, hahead] at htokens
      refine (ha.compute hc hgives.source hdistinct hrising).bind_ok ?_
      intro cs₁ hmoved
      have hx := (List.nodup_cons.1 hdistinct).1
      have hmarked := hmoved.mark hx (f := fun c =>
        { c with ahead := q.tokens.head?, exhausted := q.tokens.head?.isNone })
        (fun _ => rfl) rfl rfl
      have hsplit : q.tokens.head?.toList ++ q.rest.tokens = q.tokens := by
        rw [Part.rest]
        cases q.tokens <;> rfl
      have hafter := hmarked.streams hdistinct (by rwa [hsplit]) (by rwa [hsplit]) (by simp)
      rw [ensures_bind, ensures_update]
      have hp : p = ⟨x :: q.reads, q.tokens⟩ := by
        rcases p with ⟨reads, tokens⟩
        rw [Part.mk.injEq]
        exact ⟨hgives.reads, htokens⟩
      subst hp
      refine ⟨rfl, ⟨_, getElem?_modify_self hmoved.cursor.choose_spec.1 _, rfl⟩, ?_,
        hmarked.beside⟩
      -- With the first token ahead of the rest, the cursor still gives all that its source had.
      have hwhole : (if q.tokens.head?.isNone then []
          else q.tokens.head?.toList ++ q.rest.tokens) = q.tokens := by
        rw [hsplit]
        cases q.tokens <;> exact rfl
      rw [hwhole] at hafter
      exact hafter

theorem Advance.Reads.next_above (ha : a.Reads depth) {t : Token} {ts : List Token}
    (h : Streams cs (depth + 1) x p) (hp : p.tokens = t :: ts) :
    Ensures (Pull.next ⟨Pull.compute a, Pull.seek a⟩ x) cs fun r cs' => r = .ok t ∧
      Streams cs' (depth + 1) x { p with tokens := ts } ∧ Beside p.reads cs cs' := by
  have hpeek : Ensures (Pull.peek ⟨Pull.compute a, Pull.seek a⟩ x) cs fun r cs' => r = .ok t ∧
      (∃ c, cs'[x]? = some c ∧ c.ahead = some t) ∧ Streams cs' (depth + 1) x p ∧
        Beside p.reads cs cs' := by
    rw [Pull.peek]
    refine (ha.look_above h).bind_ok ?_
    intro cs₁ h₁
    rw [hp, List.head?_cons] at h₁ ⊢
    exact ⟨rfl, h₁⟩
  rw [Pull.next]
  refine hpeek.bind_ok ?_
  rintro cs₁ ⟨⟨c, hc, hahead⟩, ⟨c', q, hc', hgives⟩, hb⟩
  cases hc.symm.trans hc'
  have hdistinct := hgives.nodup
  have hrising := hgives.rising
  have hbounded := hgives.bounded
  have hex := hgives.awake hahead
  rw [hahead] at hrising hbounded
  have hts : ts = q.tokens := by
    have htokens := hgives.tokens
    rw [hp, hex, hahead] at htokens
    exact (List.cons.inj htokens).2
  have hx := (List.nodup_cons.1 hdistinct).1
  have hmarked := (Moved.start hc hx hgives.source).mark hx (f := fun c => { c with ahead := none })
    (fun _ => rfl) rfl rfl
  have hafter := hmarked.streams hdistinct hrising.of_cons
    (fun u hu => hbounded u (List.mem_cons_of_mem t hu)) fun _ => rfl
  simp only [hex, Bool.false_eq_true, if_false] at hafter
  rw [← hgives.reads] at hafter
  rw [ensures_bind, ensures_update, hts]
  exact ⟨rfl, hafter, hb.trans (hgives.reads ▸ hmarked.beside)⟩

theorem Advance.Reads.skipTo_above (ha : a.Reads depth) (t : Token)
    (h : Streams cs (depth + 1) x p) :
    Ensures (Pull.skipTo ⟨Pull.compute a, Pull.seek a⟩ x t) cs fun r cs' => r = .ok () ∧
      Streams cs' (depth + 1) x (p.skip t) ∧ Beside p.reads cs cs' := by
  have hstreams := h
  obtain ⟨c, q, hc, hgives⟩ := h
  have hdistinct := hgives.nodup
  have hbounded := hgives.bounded
  have htokens := hgives.tokens
  have hrest : Rising q.tokens := (List.pairwise_append.1 hgives.rising).2.1
  have hx := (List.nodup_cons.1 hdistinct).1
  have hstart := Moved.start hc hx hgives.source
  have hstays : (∀ u ∈ p.tokens.head?, t ≤ u) →
      Streams cs (depth + 1) x (p.skip t) ∧ Beside p.reads cs cs := fun hhead =>
    ⟨(Part.skip_of_head hhead).symm ▸ hstreams, .refl _ _⟩
  rw [Pull.skipTo, ensures_node_bind, Array.getD_eq_getD_getElem?, hc, Option.getD_some]
  cases hex : c.exhausted with
  | true =>
    rw [hex, if_pos rfl] at htokens
    refine ⟨rfl, hstays ?_⟩
    rw [htokens]
    rintro _ ⟨⟩
  | false =>
    rw [hex, if_neg Bool.false_ne_true] at htokens
    rw [if_neg Bool.false_ne_true]
    by_cases hhigh : c.extent.high < t
    · rw [if_pos hhigh]
      have hnone : p.tokens.dropWhile (· < t) = [] := List.dropWhile_eq_nil_iff.2 fun u hu =>
        decide_eq_true (Int.lt_of_le_of_lt (hbounded u (htokens ▸ hu)) hhigh)
      have hmarked := hstart.mark hx (f := fun c => { c with ahead := none, exhausted := true })
        (fun _ => rfl) rfl rfl
      have hafter := hmarked.streams hdistinct hrest
        (fun u hu => hbounded u (List.mem_append_right _ hu)) fun _ => rfl
      rw [ensures_update, Part.skip, hnone, hgives.reads]
      exact ⟨rfl, hafter, hmarked.beside⟩
    rw [if_neg hhigh]
    cases hany : c.ahead.any (t ≤ ·) with
    | true =>
      obtain ⟨u, hahead, htu⟩ := Option.any_eq_true _ _ |>.1 hany
      refine ⟨rfl, hstays ?_⟩
      rw [htokens, hahead]
      rintro _ ⟨⟩
      exact of_decide_eq_true htu
    | false =>
      have hmarked := hstart.mark hx (f := fun c => { c with ahead := none }) (fun _ => rfl) rfl rfl
      -- Forgetting the token ahead is a move too; the source is then to be sought in what it left.
      obtain ⟨⟨source, hcursor, hsource⟩, -, hb⟩ := hmarked
      rw [if_neg Bool.false_ne_true, ensures_bind, ensures_update]
      refine (ha.seek t hcursor hsource hdistinct hrest).mono ?_
      rintro r cs₁ ⟨hr, hmoved⟩
      have hsub := List.dropWhile_sublist (l := q.tokens) (· < t)
      have hafter := hmoved.streams hdistinct (hrest.sublist hsub)
        (fun u hu => hbounded u (List.mem_append_right _ (hsub.subset hu))) fun _ => rfl
      simp only [hex, Bool.false_eq_true, if_false] at hafter
      rw [Part.skip, htokens, dropWhile_ahead hany, hgives.reads]
      exact ⟨hr, hafter, hb.trans hmoved.beside⟩

end

/-- However deep cursors merge others, they move as their lists do. -/
theorem reads_advance (depth : Nat) : (advance depth).Reads depth := by
  induction depth with
  | zero => exact ⟨False.elim, fun h => h.elim, fun _ h => h.elim⟩
  | succ depth ih =>
    refine ⟨fun h => (ih.look_above h).mono ?_, ih.next_above, ih.skipTo_above⟩
    exact fun _ _ h => ⟨h.1, h.2.2⟩

end Pull

def Cursor.drain (x : Nat) : Nat → Pull.Step (List Token)
  | 0 => return []
  | n + 1 => do
    if !(← hasNext x) then return []
    let t ← next x
    return t :: (← drain x n)

section

variable {cs : Array Cursor} {depth x : Nat} {p : Part}

theorem Streams.hasNext (h : Streams cs (x + 1) x p) :
    Ensures (Cursor.hasNext x) cs fun r cs' => r = .ok p.tokens.head?.isSome ∧
      Streams cs' (x + 1) x p ∧ Beside p.reads cs cs' := by
  unfold Cursor.hasNext
  apply ((Pull.reads_advance (x + 1)).look h).bind_ok ?_
  intro cs₁ h₁
  exact ⟨rfl, h₁⟩

/-- A cursor is drained in the order of its stream. -/
theorem Streams.drain (h : Streams cs (x + 1) x p) (n : Nat) :
    Ensures (Cursor.drain x n) cs fun r cs' => r = .ok (p.tokens.take n) ∧
      Streams cs' (x + 1) x { p with tokens := p.tokens.drop n } ∧ Beside p.reads cs cs' := by
  induction n generalizing cs p with
  | zero => exact ⟨rfl, h, .refl _ _⟩
  | succ n ih =>
    rw [Cursor.drain]
    refine h.hasNext.bind_ok ?_
    rintro cs₁ ⟨h₁, hb₁⟩
    cases htokens : p.tokens with
    | nil =>
      have hsame : ({ p with tokens := [] } : Part) = p := by rw [← htokens]
      rw [List.drop_nil, hsame]
      exact ⟨rfl, h₁, hb₁⟩
    | cons t ts =>
      refine ((Pull.reads_advance (x + 1)).next h₁ htokens).bind_ok ?_
      rintro cs₂ ⟨h₂, hb₂⟩
      refine (ih h₂).bind_ok ?_
      rintro cs₃ ⟨h₃, hb₃⟩
      exact ⟨rfl, h₃, (hb₁.trans hb₂).trans hb₃⟩

theorem Streams.length_le_pending (h : Streams cs depth x p) :
    p.tokens.length ≤ Pull.pending cs := by
  refine h.length_le.trans (sum_pendingAt_le ?_)
  cases depth with
  | zero => exact h.elim
  | succ depth =>
    obtain ⟨c, q, -, hgives⟩ := h
    exact hgives.distinct

end

end SecondaryIndex
