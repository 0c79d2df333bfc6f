import SecondaryIndex.Proofs.Loan.Borrowed

namespace SecondaryIndex.Cursor

open Act

variable {e : Engine} {β : Type} {Q : Except Fault β → Engine → Prop}

theorem ensures_state_bind {id : Nat} {next : Cursor → Act β} :
    Ensures (state id >>= next) e Q ↔ Ensures (next (e.cursors.getD id .empty)) e Q := by
  rw [ensures_bind]
  rfl

theorem ensures_countClose_bind {id : Nat} {next : Unit → Act β} :
    Ensures (countClose id >>= next) e Q ↔
      Ensures (next ()) { e with cursors := Loan.closed e.cursors id } Q := by
  rw [ensures_bind]
  rfl

/-- What closing does after the call has been counted. -/
def closeSource (depth : Nat) (c : Cursor) : Act Unit :=
  match c.source with
  | .tokens _ none _ => return
  | .tokens _ (some f) _ => throw f
  | .union children | .intersection children =>
    if c.closes = 0 then Act.all (closeWithin depth) children else return
  | .matches merged segments =>
    if c.closes = 0 then do
      let result ← Act.attempt (closeWithin depth merged)
      Segment.releaseAll segments
      Act.settle result
    else return

theorem ensures_closeWithin {depth id : Nat} {Q : Except Fault Unit → Engine → Prop} :
    Ensures (closeWithin (depth + 1) id) e Q ↔
      Ensures (closeSource depth (e.cursors.getD id .empty))
        { e with cursors := Loan.closed e.cursors id } Q := by
  rw [closeWithin, ensures_state_bind, ensures_countClose_bind]
  rfl

theorem ensures_openAs {c : Cursor} {Q : Except Fault CursorId → Engine → Prop} :
    Ensures c.openAs e Q ↔ Q (.ok e.cursors.size) { e with cursors := e.cursors.push c } := Iff.rfl

end SecondaryIndex.Cursor

namespace SecondaryIndex.Loan

open Act Cursor

variable {P : List Segment → Prop} {e₀ e : Engine} {S : List Nat} {H : List Nat} {d x : Nat}

namespace Borrowed

theorem closeLeaf (h : Borrowed P e₀ e S (x :: H)) (hx : IsLeaf e.cursors x) (hd : 0 < d) :
    Ensures (closeWithin d x) e fun _ e' =>
      Borrowed P e₀ e' S H ∧ Closes e.cursors e'.cursors := by
  obtain ⟨d, rfl⟩ := Nat.exists_eq_add_one_of_ne_zero hd.ne'
  obtain ⟨c, hc, ht⟩ := hx
  have hn := (h.inner x (by simp)).1
  have hclose := h.close (K := [x]) hn hc (.inl rfl)
  rw [ensures_closeWithin, Array.getD_eq_getD_getElem?, hc, Option.getD_some]
  rcases c with ⟨_, s, _, _, _⟩
  cases s with
  | tokens _ closeFault _ => cases closeFault <;> exact ⟨hclose, closes_closes _ _⟩
  | _ => cases ht

theorem closeMerged (h : Borrowed P e₀ e S (x :: (parts e.cursors x ++ H))) (hd : x < d) :
    Ensures (closeWithin d x) e fun _ e' =>
      Borrowed P e₀ e' S H ∧ Closes e.cursors e'.cursors := by
  obtain ⟨hn, c, hc, hsource⟩ := h.inner x (by simp)
  rw [parts_of_getElem? hc] at h
  rcases hsource with ht | ⟨children, hu, -, hk⟩
  · rw [Source.parts_of_isTokens ht, List.nil_append] at h
    exact h.closeLeaf ⟨c, hc, ht⟩ (by omega)
  obtain ⟨d, rfl⟩ := Nat.exists_eq_add_one_of_ne_zero (Nat.ne_zero_of_lt hd)
  have hopen : c.closes = 0 := by
    have := h.once x hn (.inl (by simp))
    rw [closes_of_getElem? hc, List.count_append, List.count_cons_self] at this
    omega
  have hclose := h.close (K := [x]) hn hc (.inl rfl)
  rw [ensures_closeWithin, Array.getD_eq_getD_getElem?, hc, Option.getD_some]
  rcases c with ⟨extent, s, ahead, exhausted, calls⟩
  obtain rfl : calls = 0 := hopen
  obtain rfl : s = .union children := hu
  -- The invariant of the loop: the parts still to be closed are in hand.
  refine (ensures_all (I := fun rest e' => (∀ k ∈ rest, k ∈ children) ∧
    Borrowed P e₀ e' S (rest ++ H) ∧ Closes e.cursors e'.cursors)
    ⟨fun _ hk => hk, hclose, closes_closes _ _⟩ ?_).mono fun _ _ h => ⟨h.2.1, h.2.2⟩
  rintro k rest e' ⟨hsub, h', hext⟩
  obtain ⟨-, hkx, hleaf⟩ := hk k (hsub k (by simp))
  refine (closeLeaf h' (hleaf.extends hext.ext) (by omega)).mono ?_
  rintro _ e'' ⟨h'', hext'⟩
  exact ⟨fun j hj => hsub j (List.mem_cons_of_mem k hj), h'', hext.trans hext'⟩

/-- The parts of a merge are closed one after the other, if each can be closed. -/
theorem closeParts {children : List Nat} (h : Borrowed P e₀ e S H)
    (hparts : ∀ k ∈ children, Outer e₀.cursors.size e.cursors k)
    (each : ∀ {k : Nat} {e : Engine}, k ∈ children → Borrowed P e₀ e S H →
      Outer e₀.cursors.size e.cursors k → Ensures (closeWithin d k) e fun _ e' =>
        Borrowed P e₀ e' S H ∧ Closes e.cursors e'.cursors ∧ 0 < closes e'.cursors k) :
    Ensures (Act.all (closeWithin d) children) e fun _ e' =>
      Borrowed P e₀ e' S H ∧ Closes e.cursors e'.cursors := by
  refine (ensures_all (I := fun rest e' => (∀ k ∈ rest, k ∈ children) ∧
    Borrowed P e₀ e' S H ∧ Closes e.cursors e'.cursors)
    ⟨fun _ hk => hk, h, .refl _⟩ ?_).mono fun _ _ h => h.2
  rintro k rest e' ⟨hsub, h', hext⟩
  have hk := hsub k (by simp)
  refine (each hk h' ((hparts k hk).extends hext.ext)).mono ?_
  rintro _ e'' ⟨h'', hext', -⟩
  exact ⟨fun j hj => hsub j (List.mem_cons_of_mem k hj), h'', hext.trans hext'⟩

theorem closeOuter (h : Borrowed P e₀ e S H) (hx : Outer e₀.cursors.size e.cursors x)
    (hd : x < d) : Ensures (closeWithin d x) e fun _ e' =>
      Borrowed P e₀ e' S H ∧ Closes e.cursors e'.cursors ∧ 0 < closes e'.cursors x := by
  induction d generalizing x e with
  | zero => omega
  | succ d ih =>
    have hin := hx.not_inner
    cases hx with
    | «matches» hn hc hs =>
      rename_i c m segments
      have hmx := (h.lenders x c m segments hn hc hs).1
      have hclose := h.close (K := []) hn hc (.inr ⟨rfl, hin, by rw [hs]; rfl⟩)
      have hext := closes_closes e.cursors x
      have hcalls : 0 < closes (closed e.cursors x) x := by simp [closes_closed hc]
      rw [ensures_closeWithin, Array.getD_eq_getD_getElem?, hc, Option.getD_some, closeSource, hs]
      by_cases hopen : c.closes = 0
      · simp only [if_pos hopen]
        -- Only the first call finds the segments and the merged cursor still to be given back.
        have hlent : c.lent = segments.map Segment.id := by simp [Cursor.lent, hs, hopen]
        have howned : owned e.cursors c = m :: parts (closed e.cursors x) m := by
          have := (closes_closes e.cursors x).ext.parts (x := m)
            (hmx.trans (Array.getElem?_eq_some_iff.1 hc).1)
          simp only [owned, hs, if_pos hopen, this]
        rw [hlent, howned, List.cons_append] at hclose
        refine (closeMerged hclose (by omega)).attempt_bind ?_
        rintro result e' ⟨h', hext'⟩
        refine (releaseAll h').bind ?_ ?_
        · rintro _ e'' ⟨-, hcs, h''⟩
          rw [ensures_settle, hcs]
          exact ⟨h'', hext.trans hext', hcalls.trans_le (hext'.ext.closes_le x)⟩
        · rintro f e'' ⟨hf, -⟩
          cases hf
      · simp only [if_neg hopen]
        have hlent : c.lent = [] := by simp [Cursor.lent, hs, hopen]
        have howned : owned e.cursors c = [] := by simp [owned, hs, hopen]
        rw [hlent, howned] at hclose
        exact ⟨hclose, hext, hcalls⟩
    | merge hn hc hs hne hbelow hparts =>
      rename_i c children
      have hquiet : c.lent = [] ∧ owned e.cursors c = [] ∧ c.source.handedOut = false := by
        rcases hs with hs | hs <;> simp [Cursor.lent, owned, hs, Source.handedOut]
      have hclose := h.close (K := []) hn hc (.inr ⟨rfl, hin, hquiet.2.2⟩)
      rw [hquiet.1, hquiet.2.1] at hclose
      have hext := closes_closes e.cursors x
      have hcalls : 0 < closes (closed e.cursors x) x := by simp [closes_closed hc]
      have hloop := hclose.closeParts (fun k hk => (hparts k hk).extends hext.ext)
        fun hk h' hk' => ih h' hk' (by have := hbelow _ hk; omega)
      rw [ensures_closeWithin, Array.getD_eq_getD_getElem?, hc, Option.getD_some, closeSource]
      rcases hs with hs | hs <;>
      · rw [hs]
        by_cases hopen : c.closes = 0
        · simp only [if_pos hopen]
          refine hloop.mono fun _ e' h' => ⟨h'.1, hext.trans h'.2, ?_⟩
          exact hcalls.trans_le (h'.2.ext.closes_le x)
        · simp only [if_neg hopen]
          exact ⟨hclose, hext, hcalls⟩

end Borrowed
end SecondaryIndex.Loan
