import SecondaryIndex.Proofs.Releasing
import SecondaryIndex.Proofs.Stream.Opened

namespace SecondaryIndex

theorem Segment.cursors_releaseAll (segments : List Segment) (e : Engine) :
    Ensures (releaseAll segments) e fun r e' => r = .ok () ∧ e'.cursors = e.cursors := by
  refine ⟨Act.allQuietly_fst _ _ _, ?_⟩
  refine Act.ensures_allQuietly (I := fun _ e' => e'.cursors = e.cursors) rfl ?_
  exact fun s _ e' he' => (cursors_release s e').trans he'

def Source.closeFault : Source → Option Fault
  | .tokens _ closeFault _ => closeFault
  | _ => none

def Quiet (cs : Array Cursor) (reads : List Nat) : Prop :=
  ∀ i ∈ reads, ∀ c, cs[i]? = some c → c.source.closeFault = none

theorem Quiet.frame {cs cs' : Array Cursor} {reads : List Nat} (h : Quiet cs reads)
    (hcs : ∀ i ∈ reads, cs'[i]? = cs[i]?) : Quiet cs' reads := by
  intro i hi c hc
  rw [hcs i hi] at hc
  exact h i hi c hc

theorem Quiet.mono {cs : Array Cursor} {reads reads' : List Nat} (h : Quiet cs reads)
    (hsub : ∀ i ∈ reads', i ∈ reads) : Quiet cs reads' := fun i hi => h i (hsub i hi)

theorem Quiet.of_subset {cs : Array Cursor} {ps taken : List Part}
    (h : Quiet cs (Part.allReads ps)) (hsub : taken ⊆ ps) : Quiet cs (Part.allReads taken) := by
  refine h.mono fun i hi => ?_
  obtain ⟨p, hp, hi⟩ := Part.mem_allReads.1 hi
  exact Part.mem_allReads.2 ⟨p, hsub hp, hi⟩

theorem Quiet.push (cs : Array Cursor) {c : Cursor} (hc : c.source.closeFault = none) :
    Quiet (cs.push c) [cs.size] := by
  rintro i hi d hd
  obtain rfl := List.mem_singleton.1 hi
  rw [Array.getElem?_push_size] at hd
  cases hd
  exact hc

theorem Quiet.append {cs : Array Cursor} {reads reads' : List Nat} (h : Quiet cs reads)
    (h' : Quiet cs reads') : Quiet cs (reads ++ reads') := by
  intro i hi
  exact (List.mem_append.1 hi).elim (h i) (h' i)

namespace Cursor

variable {depth x : Nat} {e : Engine} {p : Part} {children : List Nat} {ps : List Part}

def Closed (reads : List Nat) (e : Engine) (r : Except Fault Unit) (e' : Engine) : Prop :=
  Beside reads e.cursors e'.cursors ∧ (Quiet e.cursors reads → r = .ok ())

theorem closed_all {step : Nat → Act Unit} {R : Array Cursor → Nat → Part → Prop}
    (frame : ∀ {cs cs' : Array Cursor} {x : Nat} {p : Part}, R cs x p →
      (∀ i ∈ p.reads, cs'[i]? = cs[i]?) → R cs' x p)
    (each : ∀ {x : Nat} {e : Engine} {p : Part}, R e.cursors x p →
      Ensures (step x) e (Closed p.reads e))
    (h : List.Forall₂ (R e.cursors) children ps) (hdistinct : (Part.allReads ps).Nodup) :
    Ensures (Act.all step children) e (Closed (Part.allReads ps) e) := by
  induction children generalizing e ps with
  | nil =>
    cases h
    exact ⟨.refl _ _, fun _ => rfl⟩
  | cons x rest ih =>
    cases h with
    | @cons _ p _ qs hx hrest =>
      rw [Part.allReads, List.flatMap_cons, List.nodup_append] at hdistinct
      have hdisjoint : ∀ {i}, i ∈ Part.allReads qs → i ∉ p.reads := fun hi hi' =>
        hdistinct.2.2 _ hi' _ hi rfl
      rw [Act.all]
      refine (each hx).attempt_bind ?_
      rintro first e₁ ⟨hb₁, hfirst⟩
      have hrest₁ : List.Forall₂ (R e₁.cursors) rest qs := by
        refine forall₂_imp_mem hrest fun _ _ q hq hk => frame hk fun i hi => ?_
        exact hb₁ i (hdisjoint (Part.mem_allReads.2 ⟨q, hq, hi⟩))
      refine (ih hrest₁ hdistinct.2.1).attempt_bind ?_
      rintro others e₂ ⟨hb₂, hothers⟩
      have hb : Beside (Part.allReads (p :: qs)) e.cursors e₂.cursors := by
        refine (hb₁.mono fun i hi => ?_).trans (hb₂.mono fun i hi => ?_)
        · exact List.mem_append_left _ hi
        · exact List.mem_append_right _ hi
      have hok : Quiet e.cursors (Part.allReads (p :: qs)) → first = .ok () ∧ others = .ok () := by
        intro hquiet
        refine ⟨hfirst (hquiet.mono fun i hi => List.mem_append_left _ hi), hothers ?_⟩
        refine (hquiet.mono fun i hi => List.mem_append_right _ hi).frame fun i hi => ?_
        exact hb₁ i (hdisjoint hi)
      rw [Act.ensures_settle_bind]
      cases first with
      | error f => exact ⟨hb, fun hquiet => (hok hquiet).1⟩
      | ok _ =>
        rw [Act.ensures_settle]
        exact ⟨hb, fun hquiet => (hok hquiet).2⟩

variable {reads : List Nat}

theorem closed_beside (e : Engine) (x : Nat) :
    Beside [x] e.cursors (Loan.closed e.cursors x) :=
  Beside.modify (List.mem_singleton_self x) _ _

theorem closed_frame (hx : x ∉ reads) :
    ∀ i ∈ reads, (Loan.closed e.cursors x)[i]? = e.cursors[i]? :=
  fun i hi => closed_beside e x i fun hix => hx (List.mem_singleton.1 hix ▸ hi)

theorem Closed.counted (reads : List Nat) (e : Engine) (x : Nat) :
    Closed (x :: reads) e (.ok ()) { e with cursors := Loan.closed e.cursors x } :=
  ⟨(closed_beside e x).mono fun _ hi => List.mem_singleton.1 hi ▸ List.mem_cons_self, fun _ => rfl⟩

/-- Once the call is counted, closing what is read for the cursor is all that is left. -/
theorem Closed.rest (hx : x ∉ reads) {r : Except Fault Unit} {e' : Engine}
    (h : Closed reads { e with cursors := Loan.closed e.cursors x } r e') :
    Closed (x :: reads) e r e' := by
  obtain ⟨hb, hr⟩ := h
  have hcounted := (Closed.counted reads e x).1
  refine ⟨hcounted.trans (hb.mono fun i hi => List.mem_cons_of_mem x hi), fun hquiet => hr ?_⟩
  exact (hquiet.mono fun i hi => List.mem_cons_of_mem x hi).frame (closed_frame hx)

theorem closed_closeWithin (h : Streams e.cursors depth x p) :
    Ensures (closeWithin depth x) e (Closed p.reads e) := by
  induction depth generalizing x e p with
  | zero => exact h.elim
  | succ depth ih =>
    obtain ⟨c, q, hc, hgives⟩ := h
    have hdistinct := hgives.distinct
    rw [hgives.reads, List.nodup_cons] at hdistinct
    rw [ensures_closeWithin, Array.getD_eq_getD_getElem?, hc, Option.getD_some, hgives.reads]
    -- Counting the call for `x` changes none of the cursors below it.
    have hsource : Sourced (Streams (Loan.closed e.cursors x) depth) c q :=
      hgives.source.mono fun _ _ hr hk => hk.frame fun i hi =>
        closed_frame hdistinct.1 i (hr i hi)
    have hparts : ∀ {children : List Nat} {ps : List Part},
        List.Forall₂ (Streams (Loan.closed e.cursors x) depth) children ps →
          q.reads = Part.allReads ps →
            Ensures (if c.closes = 0 then Act.all (closeWithin depth) children else return)
              { e with cursors := Loan.closed e.cursors x } (Closed (x :: q.reads) e) := by
      intro children ps hps hreads
      split
      · rw [hreads] at hdistinct ⊢
        refine (closed_all (R := (Streams · depth)) .frame ih hps hdistinct.2).mono ?_
        exact fun _ _ h => h.rest hdistinct.1
      · exact .counted q.reads e x
    rcases c with ⟨extent, source, ahead, exhausted, closes⟩
    cases source with
    | tokens rest closeFault origin =>
      cases closeFault with
      | none => exact .counted q.reads e x
      | some f =>
        refine ⟨(Closed.counted q.reads e x).1, fun hquiet => ?_⟩
        cases hquiet x List.mem_cons_self _ hc
    | union children =>
      obtain ⟨ps, hps, hreads, -⟩ := hsource
      exact hparts hps hreads
    | intersection children =>
      obtain ⟨ps, hps, hreads, -⟩ := hsource
      exact hparts hps hreads
    | «matches» merged segments =>
      simp only [Sourced] at hsource
      simp only [closeSource]
      split
      next hopen =>
        rw [if_pos hopen] at hsource
        refine (ih hsource).attempt_bind ?_
        rintro result e₁ h₁
        refine (Segment.cursors_releaseAll segments e₁).bind_ok ?_
        intro e₂ hcs
        rw [Act.ensures_settle]
        refine Closed.rest hdistinct.1 ?_
        rw [Closed, hcs]
        exact h₁
      · exact .counted q.reads e x

end Cursor
end SecondaryIndex
